import Qau.Bytes

/-!
# The QVM instruction set

`qvm/opcodes.go`: the opcodes with their bytes and `opcodeInfoTable`. In the
source an `OpCode` is any byte and a byte without a table entry is invalid;
here `OpCode` has exactly the opcodes with an entry, and `OpCode.ofByte` is
`none` on the other bytes.

Of the table only `ImmediateSize` is modelled: `Name` tells whether an entry
is there, and nothing here reads the other columns.
-/

namespace Qau

/-- The opcodes of `qvm/opcodes.go`. `PUSH n`, `DUP n` and `SWAP n` are
`PUSH1` to `PUSH32`, `DUP1` to `DUP16` and `SWAP1` to `SWAP16`, counted from
zero; `LOG n` is `LOG0` to `LOG4`. -/
inductive OpCode where
  | STOP | JUMP | JUMPI | JUMPDEST | PC | NOP | RETURN | REVERT | INVALID | SIGNEXTEND | PUSH0
  | PUSH (n : Fin 32) | POP | DUP (n : Fin 16) | SWAP (n : Fin 16)
  | ADD | SUB | MUL | DIV | MOD | SDIV | SMOD | ADDMOD | MULMOD | EXP
  | LT | GT | SLT | SGT | EQ | ISZERO
  | AND | OR | XOR | NOT | SHL | SHR | SAR | BYTE
  | MLOAD | MSTORE | MSTORE8 | MSIZE | MCOPY
  | SLOAD | SSTORE | TLOAD | TSTORE
  | ADDRESS | BALANCE | ORIGIN | CALLER | CALLVALUE | CALLDATALOAD | CALLDATASIZE | CALLDATACOPY
  | CODESIZE | CODECOPY | GASPRICE | GASLIMIT | GAS | BLOCKHASH | COINBASE | TIMESTAMP
  | NUMBER | CHAINID | SELFBALANCE | EXTCODESIZE | EXTCODECOPY | EXTCODEHASH | PREVRANDAO
  | BLOBHASH | BASEFEE | BLOBBASEFEE
  | SHA3 | KECCAK256 | KYBER_KEYGEN | KYBER_ENCAPS | KYBER_DECAPS | KYBER_ZERO_KEY
  | CALL | CALLCODE | DELEGATECALL | STATICCALL | CREATE | CREATE2 | AUTH | AUTHCALL
  | RETURNDATASIZE | RETURNDATACOPY
  | LOG (n : Fin 5)
  | SELFDESTRUCT
  deriving DecidableEq

namespace OpCode

/-- The bytes of `PUSH1` to `PUSH32`: the powers of two stand at `0x10` to
`0x15`, the others at `0xB0` to `0xC9`. -/
def pushByte (n : Fin 32) : UInt8 :=
  [0x10, 0x11, 0xB0, 0x12, 0xB1, 0xB2, 0xB3, 0x13, 0xB4, 0xB5, 0xB6, 0xB7, 0xB8, 0xB9, 0xBA, 0x14,
   0xBB, 0xBC, 0xBD, 0xBE, 0xBF, 0xC0, 0xC1, 0xC2, 0xC3, 0xC4, 0xC5, 0xC6, 0xC7, 0xC8, 0xC9,
   0x15].get n

/-- The bytes of `DUP1` to `DUP16`. -/
def dupByte (n : Fin 16) : UInt8 :=
  [0x17, 0x18, 0x19, 0x1A, 0xD0, 0xD1, 0xD2, 0xD3, 0xD4, 0xD5, 0xD6, 0xD7, 0xD8, 0xD9, 0xDA,
   0xDB].get n

/-- The bytes of `SWAP1` to `SWAP16`. -/
def swapByte (n : Fin 16) : UInt8 :=
  [0x1B, 0x1C, 0x1D, 0x1E, 0xDC, 0xDD, 0xDE, 0xDF, 0xE0, 0xE1, 0xE2, 0xE3, 0xE4, 0xE5, 0xE6,
   0xE7].get n

/-- The byte of an opcode. -/
def byte : OpCode → UInt8
  | STOP => 0x00 | JUMP => 0x01 | JUMPI => 0x02 | JUMPDEST => 0x03 | PC => 0x04 | NOP => 0x05
  | RETURN => 0x06 | REVERT => 0x07 | INVALID => 0x08 | SIGNEXTEND => 0x09 | PUSH0 => 0x0A
  | PUSH n => pushByte n | POP => 0x16 | DUP n => dupByte n | SWAP n => swapByte n
  | ADD => 0x20 | SUB => 0x21 | MUL => 0x22 | DIV => 0x23 | MOD => 0x24 | SDIV => 0x25
  | SMOD => 0x26 | ADDMOD => 0x27 | MULMOD => 0x28 | EXP => 0x29
  | LT => 0x30 | GT => 0x31 | SLT => 0x32 | SGT => 0x33 | EQ => 0x34 | ISZERO => 0x35
  | RETURNDATASIZE => 0x3D | RETURNDATACOPY => 0x3E
  | AND => 0x40 | OR => 0x41 | XOR => 0x42 | NOT => 0x43 | SHL => 0x44 | SHR => 0x45 | SAR => 0x46
  | BYTE => 0x47
  | MLOAD => 0x50 | MSTORE => 0x51 | MSTORE8 => 0x52 | MSIZE => 0x53 | MCOPY => 0x54
  | SLOAD => 0x60 | SSTORE => 0x61 | TLOAD => 0x62 | TSTORE => 0x63
  | ADDRESS => 0x70 | BALANCE => 0x71 | ORIGIN => 0x72 | CALLER => 0x73 | CALLVALUE => 0x74
  | CALLDATALOAD => 0x75 | CALLDATASIZE => 0x76 | CALLDATACOPY => 0x77 | CODESIZE => 0x78
  | CODECOPY => 0x79 | GASPRICE => 0x7A | GASLIMIT => 0x7B | GAS => 0x7C | BLOCKHASH => 0x7D
  | COINBASE => 0x7E | TIMESTAMP => 0x7F
  | NUMBER => 0x80 | CHAINID => 0x81 | SELFBALANCE => 0x82 | EXTCODESIZE => 0x83
  | EXTCODECOPY => 0x84 | EXTCODEHASH => 0x85 | PREVRANDAO => 0x86 | BLOBHASH => 0x87
  | SHA3 => 0x88 | KECCAK256 => 0x89 | KYBER_KEYGEN => 0x8A | KYBER_ENCAPS => 0x8B
  | KYBER_DECAPS => 0x8C | BASEFEE => 0x8D | KYBER_ZERO_KEY => 0x8E
  | CALL => 0x90 | CALLCODE => 0x91 | DELEGATECALL => 0x92 | STATICCALL => 0x93 | CREATE => 0x94
  | CREATE2 => 0x95 | AUTH => 0x96 | AUTHCALL => 0x97
  | LOG n => 0xA0 + UInt8.ofNat n
  | BLOBBASEFEE => 0xE8
  | SELFDESTRUCT => 0xF0

/-- Every opcode, in the order of the source. -/
def all : List OpCode :=
  [STOP, JUMP, JUMPI, JUMPDEST, PC, NOP, RETURN, REVERT, INVALID, SIGNEXTEND, PUSH0] ++
  (List.finRange 32).map PUSH ++ [POP] ++ (List.finRange 16).map DUP ++
  (List.finRange 16).map SWAP ++ [BLOBBASEFEE,
   ADD, SUB, MUL, DIV, MOD, SDIV, SMOD, ADDMOD, MULMOD, EXP, LT, GT, SLT, SGT, EQ, ISZERO,
   AND, OR, XOR, NOT, SHL, SHR, SAR, BYTE, MLOAD, MSTORE, MSTORE8, MSIZE, MCOPY,
   SLOAD, SSTORE, TLOAD, TSTORE,
   ADDRESS, BALANCE, ORIGIN, CALLER, CALLVALUE, CALLDATALOAD, CALLDATASIZE, CALLDATACOPY,
   CODESIZE, CODECOPY, GASPRICE, GASLIMIT, GAS, BLOCKHASH, COINBASE, TIMESTAMP,
   NUMBER, CHAINID, SELFBALANCE, EXTCODESIZE, EXTCODECOPY, EXTCODEHASH, PREVRANDAO, BLOBHASH,
   BASEFEE, SHA3, KECCAK256, KYBER_KEYGEN, KYBER_ENCAPS, KYBER_DECAPS, KYBER_ZERO_KEY,
   CALL, CALLCODE, DELEGATECALL, STATICCALL, CREATE, CREATE2, AUTH, AUTHCALL,
   RETURNDATASIZE, RETURNDATACOPY] ++ (List.finRange 5).map LOG ++ [SELFDESTRUCT]

/-- `GetInfo`'s test: the opcode a byte stands for, if the table has one. -/
def ofByte (b : UInt8) : Option OpCode := all.find? fun op => op.byte == b

theorem mem_all (op : OpCode) : op ∈ all := by
  cases op with
  | PUSH n | DUP n | SWAP n | LOG n => revert n; decide +kernel
  | _ => decide +kernel

@[simp] theorem ofByte_byte (op : OpCode) : ofByte op.byte = some op := by
  have hall : ∀ op ∈ all, ofByte op.byte = some op := by decide +kernel
  exact hall op (mem_all op)

theorem byte_of_ofByte {b : UInt8} {op : OpCode} (h : ofByte b = some op) : op.byte = b := by
  have := List.find?_some h
  exact eq_of_beq this

/-- The `ImmediateSize` column of `opcodeInfoTable`. -/
def immediateSize : OpCode → Nat
  | PUSH n => n + 1
  | _ => 0

/-- `IsPush`: the two ranges of `PUSH` bytes. -/
def isPush (b : UInt8) : Bool :=
  ((PUSH 0).byte ≤ b ∧ b ≤ (PUSH 31).byte) ∨ ((PUSH 2).byte ≤ b ∧ b ≤ (PUSH 30).byte)

/-- `PushSize`: the table's immediate size, zero without an entry. -/
def pushSize (b : UInt8) : Nat := (ofByte b).elim 0 immediateSize

/-- The data bytes a sweep over QVM code skips after a byte. -/
def immediate (b : UInt8) : Nat := if isPush b then pushSize b else 0

/-- The two ranges of `IsPush` are the opcodes with immediate data. -/
@[simp] theorem immediate_byte (op : OpCode) : immediate op.byte = op.immediateSize := by
  have hall : ∀ op ∈ all, immediate op.byte = op.immediateSize := by decide +kernel
  exact hall op (mem_all op)

/-- A byte in the ranges of `IsPush` has an entry in the table. -/
theorem isSome_ofByte_of_isPush {b : UInt8} (h : isPush b) : (ofByte b).isSome := by
  have hall : ∀ n < 256, isPush (UInt8.ofNat n) → (ofByte (UInt8.ofNat n)).isSome := by
    decide +kernel
  have hb := hall b.toNat b.toNat_lt
  rw [UInt8.ofNat_toNat] at hb
  exact hb h

end OpCode

end Qau
