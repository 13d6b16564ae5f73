/-
# PegMachine.Proofs.Machine.Aiming — jumps that are aimed after they were emitted

Aiming a jump changes its operand and nothing else, or it is refused. What it comes to is said by
`Bytecode.Aimed`: the jump leads to its target and has the opcode it had, and other words, tables,
entry and tracing are as they were. That holds for every address there is (`aimed_of_aim`).

A jump is refused just where no operand can hold the distance. The error then names both of its
ends, and what is being put together stays as it is (`Assembly.jumps_aimed`).

Lowering aims no jumps: it lays them out where their targets are known already. A jump that is
appended in an `Assembly` is the word that lowering lays out at that address, and is refused where
lowering refuses it (`Assembly.emitJump_as_laid`).
-/
import PegMachine.Lowering

namespace PegMachine

set_option autoImplicit false

/-- The last entry of all, changed. -/
theorem modify_push_last {α : Type} (entries : Array α) (a : α) (f : α → α) :
    (entries.push a).modify entries.size f = entries.push (f a) := by
  apply Array.ext_getElem?
  intro i
  rw [Array.getElem?_modify, Array.getElem?_push, Array.getElem?_push]
  by_cases last : i = entries.size
  · rw [if_pos last.symm, if_pos last, if_pos last, Option.map_some]
  · rw [if_neg (Ne.symm last), if_neg last, if_neg last]

namespace Bytecode

/-- What it comes to that the jump at address `source` was aimed at `target`: it leads there and is
the instruction it was, and all else is the same. -/
structure Aimed (b : Bytecode) (source target : Nat) (b' : Bytecode) : Prop where
  leads : ∃ w w', b.code[source]? = some w ∧ b'.code[source]? = some w' ∧
    Word.target source w' = target ∧ Word.code w' = Word.code w
  others : ∀ address, address ≠ source → b'.code[address]? = b.code[address]?
  tables : b'.toTables = b.toTables
  entry : b'.entry = b.entry
  traced : b'.traced = b.traced

variable {b b' : Bytecode} {source target : Nat}

theorem aim_eq_ok : b.aim source target = .ok b' ↔
    ∃ distance, Word.distance? source target = some distance ∧
      { b with
        code := b.code.modify source fun w =>
          Word.encode (Word.code w) (Word.ofDistance distance) } = b' := by
  cases found : Word.distance? source target with
  | none => simp only [aim, found, reduceCtorEq, false_and, exists_false]
  | some distance => simp only [aim, found, Except.ok.injEq, Option.some.injEq, exists_eq_left']

theorem aim_eq_error {e : LoweringError} : b.aim source target = .error e ↔
    Word.distance? source target = none ∧ .jumpTooLong source target = e := by
  cases found : Word.distance? source target with
  | none => simp only [aim, found, Except.error.injEq, true_and]
  | some distance => simp only [aim, found, reduceCtorEq, false_and]

/-- Below half the address space a jump can be aimed just as far as an operand reaches. -/
theorem exists_aim_iff (left : source < 0x8000000000000000) (right : target < 0x8000000000000000) :
    (∃ b', b.aim source target = .ok b') ↔
      -Word.reach ≤ (target : Int) - source ∧ (target : Int) - source < Word.reach := by
  have low : -0x8000000000000000 ≤ (target : Int) - source := by omega
  have high : (target : Int) - source < 0x8000000000000000 := by omega
  simp only [aim_eq_ok, Word.distance?_eq_some_iff low high]
  constructor
  · rintro ⟨_, _, ⟨_, near⟩, _⟩
    exact near
  · intro near
    exact ⟨_, _, ⟨rfl, near⟩, rfl⟩

/-- A jump that was aimed leads to its target, and nothing else has changed. -/
theorem aimed_of_aim (inside : source < b.code.size) (there : target < Word.addressSpace)
    (aimed : b.aim source target = .ok b') : b.Aimed source target b' := by
  obtain ⟨distance, found, rfl⟩ := aim_eq_ok.mp aimed
  have before : b.code[source]? = some b.code[source] := Array.getElem?_eq_getElem inside
  refine ⟨⟨_, _, before, ?_, Word.target_encode (Word.code b.code[source]) there found,
    Word.code_encode _ _⟩, ?_, rfl, rfl, rfl⟩
  · rw [Array.getElem?_modify, if_pos rfl, before, Option.map_some]
  · intro address apart
    rw [Array.getElem?_modify, if_neg apart.symm]

end Bytecode

namespace Assembly

variable {b b' : Bytecode} {source target : Nat} {e : LoweringError}

theorem run_aim_ok (aimed : b.aim source target = .ok b') :
    (aim source target).run b = .ok () b' := by
  simp only [aim, EStateM.run_bind, EStateM.run_get, aimed, EStateM.run_set]

/-- Where aiming is refused nothing is changed. -/
theorem run_aim_error (refused : b.aim source target = .error e) :
    (aim source target).run b = .error e b := by
  simp only [aim, EStateM.run_bind, EStateM.run_get, refused, EStateM.run_throw]

theorem run_aim_eq_ok {u : Unit} :
    (aim source target).run b = .ok u b' ↔ b.aim source target = .ok b' := by
  cases outcome : b.aim source target with
  | ok c => simp only [run_aim_ok outcome, EStateM.Result.ok.injEq, true_and, Except.ok.injEq]
  | error e => simp only [run_aim_error outcome, reduceCtorEq]

theorem run_aim_eq_error : (aim source target).run b = .error e b' ↔
    b.aim source target = .error e ∧ b = b' := by
  cases outcome : b.aim source target with
  | ok c => simp only [run_aim_ok outcome, reduceCtorEq, false_and]
  | error e' =>
      simp only [run_aim_error outcome, EStateM.Result.error.injEq, Except.error.injEq]

/-- Aiming a jump is exact, or it is refused. Of a jump in any bytecode, to any address, both below half
the address space, it succeeds just if the distance lies from `-2 ^ 23` to `2 ^ 23 - 1`. Then the jump
leads to its target, its opcode is what it was, and no other word and no table has changed. Otherwise nothing
at all has changed, and the error names both ends of the jump. -/
theorem jumps_aimed (b : Bytecode) (source target : Nat) (inside : source < b.code.size)
    (left : source < 0x8000000000000000) (right : target < 0x8000000000000000) :
    ((∃ b', (aim source target).run b = .ok () b') ↔
      -0x800000 ≤ (target : Int) - source ∧ (target : Int) - source ≤ 0x7fffff) ∧
    (∀ b', (aim source target).run b = .ok () b' → b.Aimed source target b') ∧
    ∀ e b', (aim source target).run b = .error e b' →
      b' = b ∧ e = .jumpTooLong source target ∧
        e.message = s!"jump from {source} to {target} does not fit in a 24-bit operand" := by
  have there : target < Word.addressSpace := Nat.lt_trans right (by decide)
  simp only [run_aim_eq_ok, run_aim_eq_error]
  refine ⟨?_, fun b' => Bytecode.aimed_of_aim inside there, ?_⟩
  · rw [Bytecode.exists_aim_iff left right]
    simp only [Word.reach]
    omega
  · rintro e b' ⟨refused, rfl⟩
    obtain ⟨_, rfl⟩ := Bytecode.aim_eq_error.mp refused
    exact ⟨rfl, rfl, rfl⟩

/-- The farthest jump back that there is; a jump forward of the same length is too long by one. -/
theorem farthest_jump_aimed :
    let b : Bytecode := { code := Array.replicate 0x800001 (Word.instruction .loop 0) }
    (∃ b', (aim 0x800000 0).run b = .ok () b' ∧ b.Aimed 0x800000 0 b') ∧
      (aim 0 0x800000).run b = .error (.jumpTooLong 0 0x800000) b := by
  intro b
  have size : b.code.size = 0x800001 := Array.size_replicate
  have back := jumps_aimed b 0x800000 0 (by omega) (by decide) (by decide)
  have ahead := jumps_aimed b 0 0x800000 (by omega) (by decide) (by decide)
  refine ⟨?_, ?_⟩
  · obtain ⟨b', aimed⟩ := back.1.mpr (by decide)
    exact ⟨b', aimed, back.2.1 b' aimed⟩
  · cases outcome : (aim 0 0x800000).run b with
    | ok u b' => exact absurd (ahead.1.mp ⟨b', outcome⟩) (by decide)
    | error e b' =>
        obtain ⟨rfl, rfl, _⟩ := ahead.2.2 e b' outcome
        rfl

/-! ## Jumps that are appended -/

theorem run_emit (code : UInt8) (operand : Nat) :
    (emit code operand).run b = .ok b.code.size (b.emit code operand).2 := rfl

theorem run_emitJump_ok (code : UInt8) {d : Int}
    (found : Word.distance? b.code.size target = some d) :
    (emitJump code target).run b =
      .ok b.code.size { b with code := b.code.push (Word.encode code (Word.ofDistance d)) } := by
  have aimed : (b.emit code 0).2.aim b.code.size target =
      .ok { b with code := b.code.push (Word.encode code (Word.ofDistance d)) } := by
    refine Bytecode.aim_eq_ok.mpr ⟨d, found, ?_⟩
    simp only [Bytecode.emit, modify_push_last, Word.code_encode]
  simp only [emitJump, EStateM.run_bind, run_emit, run_aim_ok aimed, EStateM.run_pure]

/-- A jump that is refused has been appended all the same. -/
theorem run_emitJump_error (code : UInt8) (far : Word.distance? b.code.size target = none) :
    (emitJump code target).run b =
      .error (.jumpTooLong b.code.size target) (b.emit code 0).2 := by
  have refused : (b.emit code 0).2.aim b.code.size target =
      .error (.jumpTooLong b.code.size target) := Bytecode.aim_eq_error.mpr ⟨far, rfl⟩
  simp only [emitJump, EStateM.run_bind, run_emit, run_aim_error refused]

/-- A jump that is appended is the word that lowering lays out at that address. It is refused where
lowering refuses to lay it out, with the same error. -/
theorem emitJump_as_laid (op : Opcode) (b : Bytecode) (target : Nat) (s : Lowering) :
    (∀ w s', Lower.jump op b.code.size target s = .ok (w, s') →
      (emitJump op.code target).run b = .ok b.code.size { b with code := b.code.push w }) ∧
    ∀ e, Lower.jump op b.code.size target s = .error e →
      (emitJump op.code target).run b = .error e (b.emit op.code 0).2 := by
  cases found : Word.distance? b.code.size target with
  | some d =>
      simp only [Lower.jump, found]
      refine ⟨?_, fun e refused => (by cases refused)⟩
      intro w s' laid
      cases laid
      exact run_emitJump_ok op.code found
  | none =>
      simp only [Lower.jump, found]
      refine ⟨fun w s' laid => (by cases laid), ?_⟩
      intro e refused
      cases refused
      exact run_emitJump_error op.code found

end Assembly

end PegMachine
