/-
# PegMachine.Machine.Listing — bytecode as text

`disassembly` lists the words with their addresses, each operand explained by what
it refers to, and marks where the entry range and every subroutine begin.
`listing` puts the tables in front of it. Operands that refer to nothing are
listed too; they never stop a listing.
-/
import PegMachine.Datum.Printer
import PegMachine.Machine.Bytecode

namespace PegMachine

set_option autoImplicit false

namespace CodeRange

/-- The range as text. -/
def text (r : CodeRange) : String := s!"{r.start}..{r.stop}"

end CodeRange

namespace Bytecode

/-- Width of the column of mnemonics. -/
def mnemonicWidth : Nat := 16

/-- Width of the frame around a listing. -/
def frameWidth : Nat := 60

/-- An opcode byte as two hexadecimal digits. -/
def hexByte (code : UInt8) : String :=
  "0x" ++ (if code.toNat < 16 then "0" else "") ++ String.ofList (Text.hex code.toNat)

/-- The label that an entry of a table carries. -/
def labelIn {α : Type} (b : Bytecode) (table : Array α) (index : Nat) (label : α → Nat) : String :=
  match table[index]? with
  | some entry => b.toTables.label (label entry)
  | none => Opcode.unknownMnemonic

/-- What stands behind the operand of an instruction: what the operand refers to. -/
def explanation? (b : Bytecode) (op : Opcode) (index : Nat) : Option String :=
  match op with
  | .test => some (b.labelIn b.tests index (·.label))
  | .literal | .keyword =>
    some (Text.quoted (String.ofList ((b.literals[index]?.map (·.text)).getD [])))
  | .scan => some (b.labelIn b.scans index (·.label))
  | .gather => some s!"min {(b.arities[index]?.map (·.least)).getD 0}"
  | .default => some (b.values[index]?.getD .null).display
  | .refuse | .announce => some (b.toTables.label index)
  | .call => some (b.labelIn b.subroutines index (·.label))
  | _ => none

/-- One instruction as text. -/
def describe (b : Bytecode) (pc : Nat) (w : Word) : String :=
  let index := Word.operand w
  match Word.opcode? w with
  | none => s!"{Opcode.unknownMnemonic} opcode={hexByte (Word.code w)} oper={index}"
  | some op =>
    let column := Text.padRight mnemonicWidth op.mnemonic
    if op.jumps then s!"{column} -> @{Word.target pc w}"
    else match b.explanation? op index with
      | some text => s!"{column} {index} ({text})"
      | none =>
        if op = .transform ∨ op = .combine then s!"{column} {index}" else op.mnemonic

/-- The heading in front of the entry range, and of every subroutine that is not empty. -/
def headings (b : Bytecode) (pc : Nat) : String :=
  let entry := if pc = b.entry.start then "\n  ; === entry ===\n" else ""
  let subs := b.subroutines.toList.filter fun s => s.range.start = pc && s.range.start < s.range.stop
  entry ++ String.join (subs.map fun s => s!"\n  ; === forward {b.toTables.label s.label} ===\n")

/-- The code, one word a line. -/
def disassembly (b : Bytecode) : String :=
  let line (item : Word × Nat) : String :=
    b.headings item.2 ++ s!"  {Text.padLeft 4 (toString item.2)}: {b.describe item.2 item.1}\n"
  String.join (b.code.toList.zipIdx.map line)

/-- A table: a heading with its size, and a line for every entry. -/
def tableText {α : Type} (title : String) (table : Array α) (text : α → String) : String :=
  let line (item : α × Nat) : String :=
    s!"  [{Text.padLeft 3 (toString item.2)}] {text item.1}\n"
  s!"\n--- {title} ({table.size} entries) ---\n" ++ String.join (table.toList.zipIdx.map line)

/-- The two classes of a test. -/
def testText (t : CharTest) : String := s!"{t.chars.summary} escapes {t.escapes.summary}"

/-- The tables and the code. -/
def listing (b : Bytecode) : String :=
  let label := b.toTables.label
  let title := Text.centred frameWidth '=' " COMPILED PROGRAM DUMP "
  "\n" ++ title ++ "\n" ++
    tableText "Scan Sets" b.tests (fun e => s!"{testText e.test} ({label e.label})") ++
    tableText "Literals" b.literals (fun e =>
      let anyCase := if e.anyCase then " [nocase]" else ""
      let value := (b.values[e.value]?.getD .null).display
      s!"{Text.quoted (String.ofList e.text)}{anyCase} -> {value}") ++
    tableText "Scanners" b.scans (fun e =>
      s!"{testText e.test} min {e.least} ({label e.label})") ++
    tableText "Forwards" b.subroutines (fun e => s!"{label e.label} @ {e.range.text}") ++
    s!"\n--- Bytecode ({b.code.size} instructions) ---\n" ++
    b.disassembly ++
    "\n" ++ Text.repeated frameWidth '=' ++ "\n\n"

end Bytecode

end PegMachine
