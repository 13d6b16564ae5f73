/-
# PegMachine.Machine.Word — instruction words

An instruction is one 32-bit word: the opcode in the high byte, an operand in the
24 bits below. An operand is either an index into a table or a signed distance
from the instruction itself to the one it jumps to, in two's complement. Distances
and addresses are 64-bit quantities: a distance is taken modulo `2 ^ 64`, and so
is the address a jump leads to.

`Opcode` names the instructions there are; a word with any other opcode does
nothing.
-/
namespace PegMachine

set_option autoImplicit false

/-- An instruction word. -/
abbrev Word := UInt32

/-- What an instruction does. -/
inductive Opcode where
  /-- Test one character. -/
  | test
  /-- Match a literal and yield the datum stored with it. -/
  | literal
  /-- The same, for a literal that stands for something other than its text. -/
  | keyword
  /-- Match a run of characters. -/
  | scan
  /-- Match the end of the input. -/
  | finish
  | jump
  | jumpIfOk
  | jumpIfFailed
  /-- Forget a mark and jump if the cursor has moved beyond it. -/
  | loop
  /-- Mark the cursor position. -/
  | mark
  /-- Forget the last mark. -/
  | unmark
  /-- Move the cursor back to the last mark and forget it. -/
  | rewind
  /-- Move the cursor back to the last mark and keep it. -/
  | restart
  /-- Begin a collection. -/
  | collect
  /-- Throw a collection away. -/
  | discard
  /-- Move the datum in the register into the collection. -/
  | push
  /-- Take the latest datum of the collection back into the register. -/
  | pop
  /-- End a collection: the register holds it as a list, if it is large enough. -/
  | gather
  /-- Pass the datum in the register through a function. -/
  | transform
  /-- Pass the items of the list in the register to a function. -/
  | combine
  /-- Replace a failure by a datum. -/
  | default
  /-- Fail, expecting what a label names. -/
  | refuse
  /-- Run a subroutine. -/
  | call
  /-- Report that a named rule is entered. -/
  | announce
  deriving DecidableEq, Repr

namespace Opcode

/-- The byte of an opcode. -/
def code : Opcode → UInt8
  | test => 0x01
  | literal => 0x02
  | keyword => 0x03
  | scan => 0x04
  | finish => 0x05
  | jump => 0x10
  | jumpIfOk => 0x11
  | jumpIfFailed => 0x12
  | loop => 0x13
  | mark => 0x20
  | unmark => 0x21
  | rewind => 0x22
  | restart => 0x23
  | collect => 0x30
  | discard => 0x31
  | push => 0x32
  | pop => 0x33
  | gather => 0x34
  | transform => 0x40
  | combine => 0x41
  | default => 0x42
  | refuse => 0x43
  | call => 0x50
  | announce => 0x60

/-- All opcodes. -/
def all : List Opcode :=
  [test, literal, keyword, scan, finish, jump, jumpIfOk, jumpIfFailed, loop, mark, unmark, rewind,
   restart, collect, discard, push, pop, gather, transform, combine, default, refuse, call, announce]

/-- The opcode of a byte. -/
def ofCode? : UInt8 → Option Opcode
  | 0x01 => some test
  | 0x02 => some literal
  | 0x03 => some keyword
  | 0x04 => some scan
  | 0x05 => some finish
  | 0x10 => some jump
  | 0x11 => some jumpIfOk
  | 0x12 => some jumpIfFailed
  | 0x13 => some loop
  | 0x20 => some mark
  | 0x21 => some unmark
  | 0x22 => some rewind
  | 0x23 => some restart
  | 0x30 => some collect
  | 0x31 => some discard
  | 0x32 => some push
  | 0x33 => some pop
  | 0x34 => some gather
  | 0x40 => some transform
  | 0x41 => some combine
  | 0x42 => some default
  | 0x43 => some refuse
  | 0x50 => some call
  | 0x60 => some announce
  | _ => none

/-- The name an instruction has in listings. -/
def mnemonic : Opcode → String
  | test => "ANY_CHAR"
  | literal => "LITERAL"
  | keyword => "KEYWORD"
  | scan => "SCAN"
  | finish => "EOF"
  | jump => "JUMP"
  | jumpIfOk => "JUMP_IF_SUCCESS"
  | jumpIfFailed => "JUMP_IF_FAILURE"
  | loop => "LOOP"
  | mark => "PUSH_POS"
  | unmark => "CLEAR_POS"
  | rewind => "POP_POS"
  | restart => "POP_PUSH_POS"
  | collect => "CREATE_ACC"
  | discard => "DELETE_ACC"
  | push => "PUSH"
  | pop => "POP"
  | gather => "LOAD_ACC"
  | transform => "MAP"
  | combine => "LIFT"
  | default => "OPT"
  | refuse => "FAIL"
  | call => "FORWARD"
  | announce => "PRINT"

/-- Whether the operand is a distance. -/
def jumps : Opcode → Bool
  | jump | jumpIfOk | jumpIfFailed | loop => true
  | _ => false

theorem ofCode?_code (op : Opcode) : ofCode? op.code = some op := by
  cases op <;> rfl

theorem mem_all (op : Opcode) : op ∈ all := by
  cases op <;> decide

/-- What stands in a listing for a byte that is no opcode. -/
def unknownMnemonic : String := "???"

/-- The name a byte has in listings. -/
def mnemonicOf (code : UInt8) : String :=
  match ofCode? code with
  | some op => op.mnemonic
  | none => unknownMnemonic

/-- Whether an instruction with this byte jumps. -/
def codeJumps (code : UInt8) : Bool :=
  match ofCode? code with
  | some op => op.jumps
  | none => false

end Opcode

namespace Word

/-- Operands lie below this. -/
def operandLimit : Nat := 0x1000000

/-- Distances lie from `-reach` up to below `reach`. -/
def reach : Nat := 0x800000

/-- Addresses are counted modulo this. -/
def addressSpace : Nat := 0x10000000000000000

/-- Code has fewer words than this; more, at four bytes a word, fit into no memory. -/
def codeLimit : Nat := 0x2000000000000000

/-- The word with an opcode byte and an operand, of which the low 24 bits count. -/
def encode (code : UInt8) (operand : Nat) : Word :=
  UInt32.ofNat (code.toNat * operandLimit + operand % operandLimit)

/-- The instruction with an operand. -/
def instruction (op : Opcode) (operand : Nat) : Word := encode op.code operand

/-- The opcode byte. -/
def code (w : Word) : UInt8 := UInt8.ofNat (w.toNat / operandLimit)

/-- The opcode, if there is one with this byte. -/
def opcode? (w : Word) : Option Opcode := Opcode.ofCode? (code w)

/-- The operand as an index. -/
def operand (w : Word) : Nat := w.toNat % operandLimit

/-- The operand as a distance. -/
def distance (w : Word) : Int :=
  if operand w < reach then operand w else (operand w : Int) - operandLimit

/-- The operand that stands for a distance. -/
def ofDistance (distance : Int) : Nat := (distance % operandLimit).toNat

/-- The distance from one address to another, if an operand can hold it. -/
def distance? (source target : Nat) : Option Int :=
  let distance := Int.bmod ((target : Int) - source) addressSpace
  if -reach ≤ distance ∧ distance < reach then some distance else none

/-- The address an instruction at `pc` jumps to. -/
def target (pc : Nat) (w : Word) : Nat := (((pc : Int) + distance w) % addressSpace).toNat

theorem operand_lt (w : Word) : operand w < operandLimit := Nat.mod_lt _ (by decide)

theorem toNat_encode (code : UInt8) (operand : Nat) :
    (encode code operand).toNat = code.toNat * operandLimit + operand % operandLimit := by
  have high := code.toNat_lt
  have low := Nat.mod_lt operand (by decide : 0 < operandLimit)
  simp only [encode, operandLimit] at *
  rw [UInt32.toNat_ofNat_of_lt']
  show _ < 2 ^ 32
  omega

/-- The operand of an encoded word is the low part of what was encoded. -/
theorem operand_encode (code : UInt8) (n : Nat) : operand (encode code n) = n % operandLimit := by
  rw [operand, toNat_encode]
  simp only [operandLimit]
  omega

/-- The opcode byte of an encoded word is the one that was encoded. -/
theorem code_encode (byte : UInt8) (n : Nat) : code (encode byte n) = byte := by
  have low := Nat.mod_lt n (by decide : 0 < operandLimit)
  rw [code, toNat_encode]
  have whole : (byte.toNat * operandLimit + n % operandLimit) / operandLimit = byte.toNat := by
    simp only [operandLimit] at *
    omega
  rw [whole, UInt8.ofNat_toNat]

@[simp] theorem opcode?_instruction (op : Opcode) (n : Nat) :
    opcode? (instruction op n) = some op := by
  rw [opcode?, instruction, code_encode, Opcode.ofCode?_code]

theorem operand_instruction (op : Opcode) {n : Nat} (fits : n < operandLimit) :
    operand (instruction op n) = n := by
  rw [instruction, operand_encode, Nat.mod_eq_of_lt fits]

/-- An operand reads back as the distance it stands for. -/
theorem distance_encode (byte : UInt8) {d : Int} (low : -reach ≤ d) (high : d < reach) :
    distance (encode byte (ofDistance d)) = d := by
  have fits : ofDistance d < operandLimit := by
    simp only [ofDistance, operandLimit]
    omega
  rw [distance, operand_encode, Nat.mod_eq_of_lt fits]
  simp only [ofDistance, operandLimit, reach] at *
  omega

/-- Between addresses less than half the address space apart the distance is their difference, and
there is one just if an operand can hold it. -/
theorem distance?_eq_some_iff {source target : Nat} {d : Int}
    (low : -0x8000000000000000 ≤ (target : Int) - source)
    (high : (target : Int) - source < 0x8000000000000000) : distance? source target = some d ↔
      d = (target : Int) - source ∧ -reach ≤ (target : Int) - source ∧ (target : Int) - source < reach := by
  have same : Int.bmod ((target : Int) - source) addressSpace = (target : Int) - source := by
    simp only [addressSpace]
    exact Int.bmod_eq_of_le (by omega) (by omega)
  simp only [distance?, same, Option.ite_none_right_eq_some, Option.some.injEq]
  constructor
  · rintro ⟨near, rfl⟩
    exact ⟨rfl, near⟩
  · rintro ⟨rfl, near⟩
    exact ⟨near, rfl⟩

/-- A jump leads where it was aimed, to any address there is. -/
theorem target_encode (byte : UInt8) {source target : Nat} {d : Int} (there : target < addressSpace)
    (found : distance? source target = some d) :
    Word.target source (encode byte (ofDistance d)) = target := by
  simp only [distance?, Option.ite_none_right_eq_some, Option.some.injEq] at found
  obtain ⟨⟨low, high⟩, rfl⟩ := found
  have within : (Int.bmod ((target : Int) - source) addressSpace) % addressSpace =
      ((target : Int) - source) % addressSpace := Int.bmod_emod
  rw [Word.target, distance_encode byte low high]
  simp only [addressSpace] at *
  omega

/-- Every address of code is one that jumps can lead to. -/
theorem target_instruction {op : Opcode} {source target : Nat} {d : Int} (there : target ≤ codeLimit)
    (found : distance? source target = some d) :
    Word.target source (instruction op (ofDistance d)) = target :=
  target_encode op.code (Nat.lt_of_le_of_lt there (by decide)) found

end Word

end PegMachine
