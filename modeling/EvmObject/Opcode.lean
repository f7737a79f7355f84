/-!
The closed table of defined opcodes: byte, name, size of the immediate operand, stack arity, static
gas. A byte without an entry is undefined. Main statements: `ofByte?_byte` and `byte_of_ofByte?`,
so that `Opcode` is the set of defined bytes.
-/
namespace EvmObject

/-- What an opcode costs and moves, and how it is written. -/
structure OpcodeInfo where
  byte : UInt8
  name : String
  /-- Bytes of fixed operand; a jump table follows its count byte and is not counted. -/
  immediate : Nat
  inputs : Nat
  outputs : Nat
  gas : UInt64
  terminating : Bool
deriving DecidableEq, Repr

def OpcodeInfo.plain (byte : UInt8) (name : String) (inputs outputs : Nat) (gas : UInt64) :
    OpcodeInfo :=
  ⟨byte, name, 0, inputs, outputs, gas, false⟩

def OpcodeInfo.last (byte : UInt8) (name : String) (inputs : Nat) (gas : UInt64) : OpcodeInfo :=
  ⟨byte, name, 0, inputs, 0, gas, true⟩

inductive Exit where
  | success | revert
deriving DecidableEq, Repr

/-- Operations on the two topmost words; the first operand is the top. -/
inductive BinaryOp where
  | add | sub | lt | gt | eq | and | or | xor
deriving DecidableEq, Repr

inductive UnaryOp where
  | isZero | not
deriving DecidableEq, Repr

inductive DelegatedOp where
  | mul | div | sdiv | mod | smod | addmod | mulmod | exp | signextend
  | slt | sgt | byte | shl | shr | sar | keccak256
  | address | balance | origin | caller | callvalue | calldataload | calldatasize | calldatacopy
  | codesize | codecopy | gasprice | extcodesize | extcodecopy | returndatasize | returndatacopy
  | extcodehash
  | blockhash | coinbase | timestamp | number | prevrandao | gaslimit | chainid | selfbalance
  | basefee
  | mload | mstore | mstore8 | sload | sstore | msize | gas
  | log (topics : Fin 5)
  | create | call | callcode | delegatecall | create2 | staticcall | selfdestruct
deriving DecidableEq, Repr

inductive Opcode where
  | binary (op : BinaryOp)
  | unary (op : UnaryOp)
  | pop | nop
  | push (size : Fin 33)
  /-- Copies the item `depth + 1` places from the top, the top itself being at one. -/
  | dup (depth : Fin 16)
  /-- Exchanges the top with the item `depth + 1` places below it. -/
  | swap (depth : Fin 16)
  | rjump | rjumpi | rjumpv
  | callf | retf
  | stop
  | finish (exit : Exit)
  | invalid
  | delegated (op : DelegatedOp)
deriving DecidableEq, Repr

namespace BinaryOp

def info : BinaryOp → OpcodeInfo
  | add => .plain 0x01 "ADD" 2 1 3
  | sub => .plain 0x03 "SUB" 2 1 3
  | lt => .plain 0x10 "LT" 2 1 3
  | gt => .plain 0x11 "GT" 2 1 3
  | eq => .plain 0x14 "EQ" 2 1 3
  | and => .plain 0x16 "AND" 2 1 3
  | or => .plain 0x17 "OR" 2 1 3
  | xor => .plain 0x18 "XOR" 2 1 3

def all : List BinaryOp := [add, sub, lt, gt, eq, and, or, xor]

theorem mem_all (op : BinaryOp) : op ∈ all := by
  cases op <;> decide

end BinaryOp

namespace UnaryOp

def info : UnaryOp → OpcodeInfo
  | isZero => .plain 0x15 "ISZERO" 1 1 3
  | not => .plain 0x19 "NOT" 1 1 3

def all : List UnaryOp := [isZero, not]

theorem mem_all (op : UnaryOp) : op ∈ all := by
  cases op <;> decide

end UnaryOp

namespace DelegatedOp

def info : DelegatedOp → OpcodeInfo
  | mul => .plain 0x02 "MUL" 2 1 5
  | div => .plain 0x04 "DIV" 2 1 5
  | sdiv => .plain 0x05 "SDIV" 2 1 5
  | mod => .plain 0x06 "MOD" 2 1 5
  | smod => .plain 0x07 "SMOD" 2 1 5
  | addmod => .plain 0x08 "ADDMOD" 3 1 8
  | mulmod => .plain 0x09 "MULMOD" 3 1 8
  | exp => .plain 0x0A "EXP" 2 1 10
  | signextend => .plain 0x0B "SIGNEXTEND" 2 1 5
  | slt => .plain 0x12 "SLT" 2 1 3
  | sgt => .plain 0x13 "SGT" 2 1 3
  | byte => .plain 0x1A "BYTE" 2 1 3
  | shl => .plain 0x1B "SHL" 2 1 3
  | shr => .plain 0x1C "SHR" 2 1 3
  | sar => .plain 0x1D "SAR" 2 1 3
  | keccak256 => .plain 0x20 "KECCAK256" 2 1 30
  | address => .plain 0x30 "ADDRESS" 0 1 2
  | balance => .plain 0x31 "BALANCE" 1 1 100
  | origin => .plain 0x32 "ORIGIN" 0 1 2
  | caller => .plain 0x33 "CALLER" 0 1 2
  | callvalue => .plain 0x34 "CALLVALUE" 0 1 2
  | calldataload => .plain 0x35 "CALLDATALOAD" 1 1 3
  | calldatasize => .plain 0x36 "CALLDATASIZE" 0 1 2
  | calldatacopy => .plain 0x37 "CALLDATACOPY" 3 0 3
  | codesize => .plain 0x38 "CODESIZE" 0 1 2
  | codecopy => .plain 0x39 "CODECOPY" 3 0 3
  | gasprice => .plain 0x3A "GASPRICE" 0 1 2
  | extcodesize => .plain 0x3B "EXTCODESIZE" 1 1 100
  | extcodecopy => .plain 0x3C "EXTCODECOPY" 4 0 100
  | returndatasize => .plain 0x3D "RETURNDATASIZE" 0 1 2
  | returndatacopy => .plain 0x3E "RETURNDATACOPY" 3 0 3
  | extcodehash => .plain 0x3F "EXTCODEHASH" 1 1 100
  | blockhash => .plain 0x40 "BLOCKHASH" 1 1 20
  | coinbase => .plain 0x41 "COINBASE" 0 1 2
  | timestamp => .plain 0x42 "TIMESTAMP" 0 1 2
  | number => .plain 0x43 "NUMBER" 0 1 2
  | prevrandao => .plain 0x44 "PREVRANDAO" 0 1 2
  | gaslimit => .plain 0x45 "GASLIMIT" 0 1 2
  | chainid => .plain 0x46 "CHAINID" 0 1 2
  | selfbalance => .plain 0x47 "SELFBALANCE" 0 1 5
  | basefee => .plain 0x48 "BASEFEE" 0 1 2
  | mload => .plain 0x51 "MLOAD" 1 1 3
  | mstore => .plain 0x52 "MSTORE" 2 0 3
  | mstore8 => .plain 0x53 "MSTORE8" 2 0 3
  | sload => .plain 0x54 "SLOAD" 1 1 100
  | sstore => .plain 0x55 "SSTORE" 2 0 100
  | msize => .plain 0x59 "MSIZE" 0 1 2
  | gas => .plain 0x5A "GAS" 0 1 2
  | log topics =>
    .plain (0xA0 + UInt8.ofNat topics) ("LOG" ++ toString topics.val) (topics + 2) 0 375
  | create => .plain 0xF0 "CREATE" 3 1 32000
  | call => .plain 0xF1 "CALL" 7 1 100
  | callcode => .plain 0xF2 "CALLCODE" 7 1 100
  | delegatecall => .plain 0xF4 "DELEGATECALL" 6 1 100
  | create2 => .plain 0xF5 "CREATE2" 4 1 32000
  | staticcall => .plain 0xFA "STATICCALL" 6 1 100
  | selfdestruct => .last 0xFF "SELFDESTRUCT" 1 5000

def all : List DelegatedOp :=
  [mul, div, sdiv, mod, smod, addmod, mulmod, exp, signextend, slt, sgt, byte, shl, shr, sar,
    keccak256, address, balance, origin, caller, callvalue, calldataload, calldatasize,
    calldatacopy, codesize, codecopy, gasprice, extcodesize, extcodecopy, returndatasize,
    returndatacopy, extcodehash, blockhash, coinbase, timestamp, number, prevrandao, gaslimit,
    chainid, selfbalance, basefee, mload, mstore, mstore8, sload, sstore, msize, gas]
  ++ (List.finRange 5).map log
  ++ [create, call, callcode, delegatecall, create2, staticcall, selfdestruct]

theorem mem_all (op : DelegatedOp) : op ∈ all := by
  cases op with
  | log topics =>
    have every : ∀ t : Fin 5, log t ∈ all := by decide
    exact every topics
  | _ => decide

end DelegatedOp

namespace Opcode

def info : Opcode → OpcodeInfo
  | binary op => op.info
  | unary op => op.info
  | pop => .plain 0x50 "POP" 1 0 2
  | nop => .plain 0x5B "NOP" 0 0 1
  | push size =>
    ⟨0x5F + UInt8.ofNat size, "PUSH" ++ toString size.val, size, 0, 1,
      if size = 0 then 2 else 3, false⟩
  | dup depth =>
    .plain (0x80 + UInt8.ofNat depth) ("DUP" ++ toString (depth.val + 1))
      (depth + 1) (depth + 2) 3
  | swap depth =>
    .plain (0x90 + UInt8.ofNat depth) ("SWAP" ++ toString (depth.val + 1))
      (depth + 2) (depth + 2) 3
  | rjump => ⟨0x5C, "RJUMP", 2, 0, 0, 2, false⟩
  | rjumpi => ⟨0x5D, "RJUMPI", 2, 1, 0, 4, false⟩
  | rjumpv => ⟨0x5E, "RJUMPV", 1, 1, 0, 4, false⟩
  -- The arity of a call is its callee's, which the table cannot know.
  | callf => ⟨0xB0, "CALLF", 2, 0, 0, 5, false⟩
  | retf => .plain 0xB1 "RETF" 0 0 3
  | stop => .last 0x00 "STOP" 0 0
  | finish .success => .last 0xF3 "RETURN" 2 0
  | finish .revert => .last 0xFD "REVERT" 2 0
  | invalid => .last 0xFE "INVALID" 0 0
  | delegated op => op.info

def byte (op : Opcode) : UInt8 := op.info.byte

def all : List Opcode :=
  BinaryOp.all.map binary ++ UnaryOp.all.map unary ++ [pop, nop]
  ++ (List.finRange 33).map push ++ (List.finRange 16).map dup ++ (List.finRange 16).map swap
  ++ [rjump, rjumpi, rjumpv, callf, retf, stop, finish .success, finish .revert, invalid]
  ++ DelegatedOp.all.map delegated

theorem mem_all (op : Opcode) : op ∈ all := by
  cases op with
  | binary op => simp [all, op.mem_all]
  | unary op => simp [all, op.mem_all]
  | finish exit => cases exit <;> simp [all]
  | delegated op => simp [all, op.mem_all]
  | _ => simp [all, List.mem_finRange]

/-- The opcode of each byte, by search through all of them. -/
def table : Vector (Option Opcode) 256 :=
  Vector.ofFn fun b => all.find? fun op => op.byte.toNat == b.val

def ofByte? (b : UInt8) : Option Opcode :=
  have h : b.toNat < 256 := b.toNat_lt
  table[b.toNat]

theorem ofByte?_eq (b : UInt8) : ofByte? b = all.find? fun op => op.byte.toNat == b.toNat := by
  simp [ofByte?, table]

theorem ofByte?_byte (op : Opcode) : ofByte? op.byte = some op := by
  have each : ∀ op ∈ all, (all.find? fun o => o.byte.toNat == op.byte.toNat) = some op := by
    decide +kernel
  rw [ofByte?_eq]
  exact each op op.mem_all

theorem byte_of_ofByte? {b : UInt8} {op : Opcode} (h : ofByte? b = some op) : op.byte = b := by
  rw [ofByte?_eq] at h
  have found := List.find?_some h
  exact UInt8.toNat.inj (by simpa using found)

theorem gas_pos {op : Opcode} (h : op.info.terminating = false) : 0 < op.info.gas.toNat := by
  have each : ∀ op ∈ all, op.info.terminating = false → 0 < op.info.gas.toNat := by
    decide +kernel
  exact each op op.mem_all h

end Opcode
end EvmObject
