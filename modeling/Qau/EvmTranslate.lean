import Qau.QvmOpcode
import Qau.Sweep

/-!
# Translation of EVM bytecode

`qvm/evm_translate.go` turns EVM bytecode into QVM bytecode when a contract
is created. Three other components read the result: the run loop fetches an
opcode at the program counter, `analyzeJumpDests` (`qvm/qvm.go`) lists the
targets a jump may have, and `QuickValidate` (`qvm/validator.go`) decides
whether a call runs the code at all. All four walk the code instruction by
instruction and step over the data of a `PUSH`, so each is stated over
`sweep`; the offset a walk stands at is the source's `i` or `pc`.

The creation paths never remove the marker, which is eight bytes long and
starts with a byte that is no opcode.

The cache of `analyzeJumpDests` is left out: it returns what it computed
before for code with the same SHA-256 digest.
-/

namespace Qau

open OpCode (ofByte immediate isPush pushSize)

variable {b : UInt8} {op : OpCode} {t code : Bytes}

/-! ## The translation -/

/-- `evmToQVMOpcodeMap`. -/
def evmToQVMOpcodeTable : List (UInt8 × OpCode) :=
  ([(0x01, .ADD), (0x02, .MUL), (0x03, .SUB), (0x04, .DIV), (0x05, .SDIV), (0x06, .MOD),
   (0x07, .SMOD), (0x08, .ADDMOD), (0x09, .MULMOD), (0x0A, .EXP), (0x0B, .SIGNEXTEND),
   (0x10, .LT), (0x11, .GT), (0x12, .SLT), (0x13, .SGT), (0x14, .EQ), (0x15, .ISZERO), (0x16, .AND),
   (0x17, .OR), (0x18, .XOR), (0x19, .NOT), (0x1A, .BYTE), (0x1B, .SHL), (0x1C, .SHR), (0x1D, .SAR),
   (0x20, .KECCAK256),
   (0x30, .ADDRESS), (0x31, .BALANCE), (0x32, .ORIGIN), (0x33, .CALLER), (0x34, .CALLVALUE),
   (0x35, .CALLDATALOAD), (0x36, .CALLDATASIZE), (0x37, .CALLDATACOPY), (0x38, .CODESIZE),
   (0x39, .CODECOPY), (0x3A, .GASPRICE), (0x3B, .EXTCODESIZE), (0x3C, .EXTCODECOPY),
   (0x3D, .RETURNDATASIZE), (0x3E, .RETURNDATACOPY), (0x3F, .EXTCODEHASH),
   (0x40, .BLOCKHASH), (0x41, .COINBASE), (0x42, .TIMESTAMP), (0x43, .NUMBER), (0x44, .PREVRANDAO),
   (0x45, .GASLIMIT), (0x46, .CHAINID), (0x47, .SELFBALANCE), (0x48, .BASEFEE), (0x49, .BLOBHASH),
   (0x4A, .BLOBBASEFEE),
   (0x50, .POP), (0x51, .MLOAD), (0x52, .MSTORE), (0x53, .MSTORE8), (0x54, .SLOAD), (0x55, .SSTORE),
   (0x56, .JUMP), (0x57, .JUMPI), (0x58, .PC), (0x59, .MSIZE), (0x5A, .GAS), (0x5B, .JUMPDEST),
   (0x5F, .PUSH0), (0x5E, .MCOPY), (0x5C, .TLOAD), (0x5D, .TSTORE)] : List (UInt8 × OpCode)) ++
  (List.finRange 32).map (fun n => (0x60 + UInt8.ofNat n.val, .PUSH n)) ++
  (List.finRange 16).map (fun n => (0x80 + UInt8.ofNat n.val, .DUP n)) ++
  (List.finRange 16).map (fun n => (0x90 + UInt8.ofNat n.val, .SWAP n)) ++
  (List.finRange 5).map (fun n => (0xA0 + UInt8.ofNat n.val, .LOG n)) ++
  ([(0xF0, .CREATE), (0xF1, .CALL), (0xF2, .CALLCODE), (0xF3, .RETURN), (0xF4, .DELEGATECALL),
   (0xF5, .CREATE2), (0xFA, .STATICCALL), (0xFD, .REVERT), (0xFE, .INVALID), (0xFF, .SELFDESTRUCT),
   (0xF6, .AUTH), (0xF7, .AUTHCALL), (0x00, .STOP)] : List (UInt8 × OpCode))

/-- The QVM opcode an EVM opcode is mapped to. -/
def evmToQVMOpcode (b : UInt8) : Option OpCode := evmToQVMOpcodeTable.lookup b

/-- The errors of `TranslateEVMBytecode`, with the opcode and its position. -/
inductive TranslateError where
  /-- `"evm_translate: unknown PUSH opcode 0x%02x at position %d"` -/
  | unknownPushOpcode (op : UInt8) (position : Nat)
  /-- `"evm_translate: unknown opcode 0x%02x at position %d"` -/
  | unknownOpcode (op : UInt8) (position : Nat)
  deriving DecidableEq

/-- The range of EVM `PUSH` opcodes. -/
def isEVMPush (b : UInt8) : Bool := 0x60 ≤ b ∧ b ≤ 0x7F

/-- `pushSize` of `TranslateEVMBytecode`, zero for the other opcodes. -/
def evmImmediate (b : UInt8) : Nat := if isEVMPush b then (b - 0x60).toNat + 1 else 0

/-- One opcode of the translation. -/
def translateOp (position : Nat) (b : UInt8) : Except TranslateError UInt8 :=
  match evmToQVMOpcode b with
  | some op => .ok op.byte
  | none => .error (if isEVMPush b then .unknownPushOpcode b position else .unknownOpcode b position)

/-- `EVMTranslatedMarker`. -/
def evmTranslatedMarker : Bytes := [0xFA, 0xE5, 0xFE, 0x91, 0x4D, 0xE6, 0xE0, 0xE1]

/-- `TranslateEVMBytecode`: the marker, then opcode by opcode the mapped
opcode and a copy of the push data, padded with zeros where the code ends
inside it. -/
def translateEVMBytecode (evmCode : Bytes) : Except TranslateError Bytes := do
  let qvmCode ← recode evmImmediate translateOp id 0 evmCode
  return evmTranslatedMarker ++ qvmCode

/-- The opcodes `IsEVMBytecode` takes as a sign of QVM code. -/
def qvmOps : List OpCode :=
  ([.STOP, .JUMP, .JUMPI, .JUMPDEST, .PC, .NOP, .RETURN, .REVERT, .INVALID, .PUSH0] :
    List OpCode) ++
  ((List.finRange 32).take 16).map OpCode.PUSH ++
  ([.ADD, .MUL, .SUB, .DIV, .SDIV, .MOD, .SMOD, .ADDMOD, .MULMOD, .EXP, .SIGNEXTEND,
   .LT, .GT, .SLT, .SGT, .EQ, .ISZERO, .AND, .OR, .XOR, .NOT, .BYTE, .SHL, .SHR, .SAR,
   .KECCAK256, .ADDRESS, .BALANCE, .ORIGIN, .CALLER, .CALLVALUE,
   .CALLDATALOAD, .CALLDATASIZE, .CALLDATACOPY, .CODESIZE, .CODECOPY,
   .GASPRICE, .EXTCODESIZE, .EXTCODECOPY, .RETURNDATASIZE, .RETURNDATACOPY,
   .EXTCODEHASH, .BLOCKHASH, .COINBASE, .TIMESTAMP, .NUMBER, .CHAINID,
   .SELFBALANCE, .PREVRANDAO, .BASEFEE, .BLOBBASEFEE, .GASLIMIT,
   .POP, .MLOAD, .MSTORE, .MSTORE8, .SLOAD, .SSTORE, .MSIZE, .GAS] : List OpCode) ++
  (List.finRange 5).map OpCode.LOG ++
  ([.CREATE, .CALL, .CALLCODE, .DELEGATECALL, .CREATE2, .STATICCALL, .SELFDESTRUCT] :
    List OpCode) ++
  (List.finRange 16).map OpCode.DUP ++ (List.finRange 16).map OpCode.SWAP ++
  ([.TLOAD, .TSTORE, .BLOBHASH, .MCOPY] : List OpCode)

def isEVMBytecode : Bytes → Bool
  | [] => false
  | first :: rest =>
    -- PUSH1 0x80 PUSH1 0x40 MSTORE, the start of a Solidity contract
    if (first :: rest).take 5 = [0x60, 0x80, 0x60, 0x40, 0x52] then true
    else if first = 0x5F then true
    else if qvmOps.any fun op => op.byte == first then false
    else (0x60 ≤ first ∧ first ≤ 0x7F) ∨ (0x80 ≤ first ∧ first ≤ 0x9F) ∨
      (0xA0 ≤ first ∧ first ≤ 0xA4)

/-- The code `Create`, `Create2` and `opCreateGeneric` run for the init code
`code`, and the code they store for the runtime code `code`. (The
opcode-level creation runs init code that does not translate as it is; the
others give up.) -/
def createdCode (code : Bytes) : Except TranslateError Bytes :=
  if 0 < code.length ∧ isEVMBytecode code then translateEVMBytecode code else .ok code

/-! ## The readers of the code -/

/-- The opcode `run` finds at `pc`; `none` past the end and where it stops
with `ErrInvalidOpcode`. -/
def fetch (code : Bytes) (pc : Nat) : Option OpCode := code[pc]?.bind ofByte

/-- `analyzeJumpDests`: the offsets of the `JUMPDEST` instructions. -/
def analyzeJumpDests (code : Bytes) : List Nat :=
  ((sweep immediate code).filter fun i => i.2 = OpCode.JUMPDEST.byte).map Prod.fst

def maxCodeSize : Nat := 24576

inductive ValidateError where
  | codeTooLarge
  | invalidCodePrefix
  | invalidPushData
  | unknownOpcode
  deriving DecidableEq

/-- The check of one instruction in `QuickValidate`. -/
def quickValidateOp (size : Nat) (i : Nat × UInt8) : Except ValidateError Unit :=
  if isPush i.2 then
    if size < i.1 + 1 + pushSize i.2 then .error .invalidPushData else .ok ()
  else if (ofByte i.2).isNone then .error .unknownOpcode
  else .ok ()

def quickValidate (code : Bytes) : Except ValidateError Unit :=
  if maxCodeSize < code.length then .error .codeTooLarge
  else if code.head? = some 0xEF then .error .invalidCodePrefix
  else (sweep immediate code).forM (quickValidateOp code.length)

/-- The `JUMPDEST` instructions of EVM code: `0x5B` outside push data. -/
def evmJumpDests (code : Bytes) : List Nat :=
  ((sweep evmImmediate code).filter fun i => i.2 = 0x5B).map Prod.fst

/-! ## Facts about the opcode map -/

theorem translateOp_eq_ok {position : Nat} {q : UInt8} :
    translateOp position b = .ok q ↔ ∃ op, evmToQVMOpcode b = some op ∧ op.byte = q := by
  rw [translateOp]
  cases evmToQVMOpcode b <;> simp

/-- What holds of every entry of the opcode map holds of every opcode it
maps. -/
theorem of_evmToQVMOpcode {P : UInt8 → OpCode → Prop} (h : ∀ e ∈ evmToQVMOpcodeTable, P e.1 e.2)
    (hb : evmToQVMOpcode b = some op) : P b op := by
  obtain ⟨l₁, l₂, hl, -⟩ := List.lookup_eq_some_iff.1 hb
  exact h (b, op) (by simp [hl])

theorem immediateSize_evmToQVMOpcode (h : evmToQVMOpcode b = some op) :
    op.immediateSize = evmImmediate b :=
  of_evmToQVMOpcode (P := fun b op => op.immediateSize = evmImmediate b) (by decide +kernel) h

/-- The opcodes with one byte in both instruction sets: `STOP`,
`RETURNDATASIZE`, `RETURNDATACOPY` and the logs. -/
def sharedOpcodes : Bytes := [0x00, 0x3D, 0x3E, 0xA0, 0xA1, 0xA2, 0xA3, 0xA4]

theorem byte_eq_iff_mem_sharedOpcodes (h : evmToQVMOpcode b = some op) :
    op.byte = b ↔ b ∈ sharedOpcodes :=
  of_evmToQVMOpcode (P := fun b op => op.byte = b ↔ b ∈ sharedOpcodes) (by decide +kernel) h

theorem immediate_of_translateOp (position : Nat) (b q : UInt8)
    (h : translateOp position b = .ok q) : immediate q = evmImmediate b := by
  obtain ⟨op, hop, rfl⟩ := translateOp_eq_ok.1 h
  rw [OpCode.immediate_byte, immediateSize_evmToQVMOpcode hop]

/-! ## What the translation keeps -/

theorem translateEVMBytecode_eq_ok {e : Bytes} : translateEVMBytecode e = .ok t ↔
      ∃ body, recode evmImmediate translateOp id 0 e = .ok body ∧ t = evmTranslatedMarker ++ body := by
  rw [translateEVMBytecode]
  cases recode evmImmediate translateOp id 0 e with
  | error err => simp [bind, Except.bind]
  | ok body => simp [bind, Except.bind, pure, Except.pure, eq_comm]

section
variable {e body : Bytes}

theorem sweep_translated (h : recode evmImmediate translateOp id 0 e = .ok body) :
    List.Forall₂ (fun i j => i.1 = j.1 ∧ translateOp i.1 i.2 = .ok j.2)
      (sweep evmImmediate e) (sweep immediate body) :=
  sweep_recode immediate_of_translateOp h

theorem mem_evmJumpDests {p : Nat} : p ∈ evmJumpDests e ↔ (p, 0x5B) ∈ sweep evmImmediate e := by
  simp [evmJumpDests]

theorem mem_analyzeJumpDests {p : Nat} :
    p ∈ analyzeJumpDests e ↔ (p, OpCode.JUMPDEST.byte) ∈ sweep immediate e := by
  simp [analyzeJumpDests]

end

/-! ## Validation -/

theorem quickValidateOp_eq_ok {size : Nat} {i : Nat × UInt8} : quickValidateOp size i = .ok () ↔
      (ofByte i.2).isSome ∧ (isPush i.2 → i.1 + 1 + immediate i.2 ≤ size) := by
  rw [quickValidateOp, immediate]
  by_cases hpush : isPush i.2
  · have hsome := OpCode.isSome_ofByte_of_isPush hpush
    simp [hpush, hsome]
  · cases h : ofByte i.2 <;> simp [hpush]

theorem quickValidate_eq_ok : quickValidate code = .ok () ↔
      code.length ≤ maxCodeSize ∧ code.head? ≠ some 0xEF ∧
        ∀ i ∈ sweep immediate code,
          (ofByte i.2).isSome ∧ (isPush i.2 → i.1 + 1 + immediate i.2 ≤ code.length) := by
  rw [quickValidate]
  by_cases hsize : maxCodeSize < code.length
  · simp [hsize]
  · by_cases hhead : code.head? = some 0xEF
    · simp [hsize, hhead]
    · simp only [hsize, hhead, if_false, forM_eq_ok_iff, quickValidateOp_eq_ok, Nat.le_of_not_lt hsize,
        not_false_eq_true, true_and, ne_eq]

theorem mem_sweep_of_head? {imm : UInt8 → Nat} (h : code.head? = some b) :
    (0, b) ∈ sweep imm code := by
  obtain ⟨rest, rfl⟩ := List.head?_eq_some_iff.1 h
  exact List.mem_cons_self

/-! ## Running at the same positions -/

/-- The code `c` runs the EVM code `e` at the positions of `e`: it starts
with the translation of the first opcode of `e`, a jump may go exactly where
`e` has a `JUMPDEST`, and a call does not reject it. -/
structure RunsAtSamePositions (e c : Bytes) : Prop where
  first : ∀ b ∈ e.head?, fetch c 0 = evmToQVMOpcode b
  jumpDests : ∀ p, p ∈ evmJumpDests e ↔ p ∈ analyzeJumpDests c
  valid : quickValidate c = .ok ()

theorem quickValidate_marker_append (body : Bytes) :
    quickValidate (evmTranslatedMarker ++ body) ≠ .ok () := by
  intro h
  have := ((quickValidate_eq_ok.1 h).2.2 (0, 0xFA) (mem_sweep_of_head? rfl)).1
  exact absurd this (by decide +kernel)

/-! ## Created code -/

/-- A created contract starts with the code it was given unless that starts
like EVM code. -/
theorem isEVMBytecode_of_mem_sharedOpcodes (h : b ∈ sharedOpcodes) (rest : Bytes) :
    isEVMBytecode (b :: rest) = false := by
  have hb : b ≠ 0x60 ∧ b ≠ 0x5F ∧ (qvmOps.any fun op => op.byte == b) = true := by
    revert b
    decide +kernel
  rw [isEVMBytecode, if_neg, if_neg hb.2.1, if_pos hb.2.2]
  intro heq
  rw [List.take_succ_cons, List.cons.injEq] at heq
  exact hb.1 heq.1

/-- Code that means the same untranslated: its first opcode is one of both
instruction sets, neither finds a jump destination in it, and it is valid
QVM code. -/
structure SameUntranslated (e : Bytes) : Prop where
  first : ∀ b ∈ e.head?, b ∈ sharedOpcodes
  noEVMDest : evmJumpDests e = []
  noDest : analyzeJumpDests e = []
  valid : quickValidate e = .ok ()

/-- The opcodes of the two jump destinations differ, so no offset can be a
destination of both. -/
theorem jumpDests_agree_iff (e : Bytes) : (∀ p, p ∈ evmJumpDests e ↔ p ∈ analyzeJumpDests e) ↔
      evmJumpDests e = [] ∧ analyzeJumpDests e = [] := by
  constructor
  · intro h
    have hnone : ∀ p, p ∉ evmJumpDests e := by
      intro p hp
      have hevm := getElem?_of_mem_sweep (mem_evmJumpDests.1 hp)
      have hqvm := getElem?_of_mem_sweep (mem_analyzeJumpDests.1 ((h p).1 hp))
      have : some (0x5B : UInt8) = some OpCode.JUMPDEST.byte := hevm.symm.trans hqvm
      exact absurd this (by decide)
    exact ⟨List.eq_nil_iff_forall_not_mem.2 hnone,
      List.eq_nil_iff_forall_not_mem.2 fun p hp => hnone p ((h p).2 hp)⟩
  · rintro ⟨hevm, hqvm⟩ p
    rw [hevm, hqvm]

theorem exists_evmToQVMOpcode {e : Bytes} (h : translateEVMBytecode e = .ok t)
    (hb : e.head? = some b) : ∃ op, evmToQVMOpcode b = some op := by
  obtain ⟨body, hbody, -⟩ := translateEVMBytecode_eq_ok.1 h
  obtain ⟨j, -, -, hop⟩ := exists_right_of_forall₂ (sweep_translated hbody) (mem_sweep_of_head? hb)
  obtain ⟨op, hmap, -⟩ := translateOp_eq_ok.1 hop
  exact ⟨op, hmap⟩

/-- With the marker in front no translation runs at the positions of its
source. -/
theorem not_runsAtSamePositions_marker {e : Bytes} (h : translateEVMBytecode e = .ok t) :
    ¬ RunsAtSamePositions e t := by
  obtain ⟨body, -, rfl⟩ := translateEVMBytecode_eq_ok.1 h
  exact fun hruns => quickValidate_marker_append body hruns.valid

/-- What the creation paths run and store for accepted EVM code runs at its
positions exactly if it is not translated and happens to mean the same. -/
theorem created_runsAtSamePositions_iff {e t c : Bytes} (haccepted : translateEVMBytecode e = .ok t)
    (hcreated : createdCode e = .ok c) : RunsAtSamePositions e c ↔ SameUntranslated e := by
  by_cases hevm : 0 < e.length ∧ isEVMBytecode e
  · rw [createdCode, if_pos hevm, haccepted, Except.ok.injEq] at hcreated
    subst hcreated
    refine iff_of_false (not_runsAtSamePositions_marker haccepted) fun hsame => ?_
    obtain ⟨b, rest, rfl⟩ := List.exists_cons_of_length_pos hevm.1
    have := isEVMBytecode_of_mem_sharedOpcodes (hsame.first b rfl) rest
    rw [this] at hevm
    exact absurd hevm.2 (by decide)
  · rw [createdCode, if_neg hevm, Except.ok.injEq] at hcreated
    subst hcreated
    have hfirst : (∀ b ∈ e.head?, fetch e 0 = evmToQVMOpcode b) ↔
        ∀ b ∈ e.head?, b ∈ sharedOpcodes := by
      refine forall₂_congr fun b hb => ?_
      obtain ⟨op, hmap⟩ := exists_evmToQVMOpcode haccepted hb
      rw [hmap, ← byte_eq_iff_mem_sharedOpcodes hmap, fetch, ← List.head?_eq_getElem?, hb]
      constructor
      · exact OpCode.byte_of_ofByte
      · rintro rfl
        exact OpCode.ofByte_byte op
    constructor
    · rintro ⟨first, dests, valid⟩
      obtain ⟨hd, hd'⟩ := (jumpDests_agree_iff e).1 dests
      exact ⟨hfirst.1 first, hd, hd', valid⟩
    · rintro ⟨first, hd, hd', valid⟩
      exact ⟨hfirst.2 first, (jumpDests_agree_iff e).2 ⟨hd, hd'⟩, valid⟩

/-- Code that copies the return data. -/
theorem created_runsAtSamePositions_returnData :
    RunsAtSamePositions [0x3D, 0x3D, 0x3D, 0x3E, 0x00] [0x3D, 0x3D, 0x3D, 0x3E, 0x00] :=
  (created_runsAtSamePositions_iff
    (t := evmTranslatedMarker ++ [0x3D, 0x3D, 0x3D, 0x3E, 0x00]) (by decide +kernel)
    (by decide +kernel)).2
    { first := by decide +kernel
      noEVMDest := by decide +kernel
      noDest := by decide +kernel
      valid := by decide +kernel }

/-- The start of a Solidity contract followed by `JUMPDEST STOP`: the
created code begins with no instruction, has its jump destination at 13
instead of 5, and a call rejects it. -/
theorem created_solidity_preamble : let e : Bytes := [0x60, 0x80, 0x60, 0x40, 0x52, 0x5B, 0x00]
    ∃ c, translateEVMBytecode e = .ok c ∧ createdCode e = .ok c ∧
      evmToQVMOpcode 0x60 = some (.PUSH 0) ∧ fetch c 0 = none ∧
      evmJumpDests e = [5] ∧ analyzeJumpDests c = [13] ∧
      quickValidate c = .error .unknownOpcode :=
  ⟨evmTranslatedMarker ++ [0x10, 0x80, 0x10, 0x40, 0x51, 0x03, 0x00], by decide +kernel⟩

end Qau
