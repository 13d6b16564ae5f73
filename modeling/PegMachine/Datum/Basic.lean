/-
# PegMachine.Datum.Basic — what a parse yields

A parse yields one `Datum`: a scalar, a list collected by a sequence or a
repetition, or a map built by a transform. A map holds its entries in ascending
order of their keys, each key once; `insertEntry` keeps that order
(`keysAscend_insertEntry`) and lets the later of two equal keys win.

Two readings of a datum serve the transforms: `joined?` is the text in it —
characters and texts strung together through any nesting of lists — and `same`
is equality, where doubles are compared as numbers, so that a NaN differs from
itself and the two zeros are the same.

A constant (`isConstant`) is a datum without maps: what a grammar may embed.
-/
namespace PegMachine

set_option autoImplicit false

/-- The result of a parse. -/
inductive Datum where
  | null
  | bool (b : Bool)
  | int (i : Int64)
  | float (x : Float)
  | char (c : Char)
  | text (s : String)
  | list (items : List Datum)
  | map (entries : List (String × Datum))
  deriving Inhabited

namespace Datum

/-! ## Maps -/

/-- Put an entry in its place; an entry with the same key is replaced. -/
def insertEntry (key : String) (value : Datum) : List (String × Datum) → List (String × Datum)
  | [] => [(key, value)]
  | (k, v) :: rest =>
    if key < k then (key, value) :: (k, v) :: rest
    else if key = k then (key, value) :: rest
    else (k, v) :: insertEntry key value rest

/-- The map with these entries; of two with one key the later wins. -/
def ofEntries (entries : List (String × Datum)) : Datum :=
  .map (entries.foldl (fun done entry => insertEntry entry.1 entry.2 done) [])

/-- The entries stand in strictly ascending order of their keys. -/
def KeysAscend (entries : List (String × Datum)) : Prop :=
  entries.Pairwise fun a b => a.1 < b.1

/-! ## Views -/

def isNull : Datum → Bool
  | .null => true
  | _ => false

/-- The items of a list. -/
def items? : Datum → Option (List Datum)
  | .list items => some items
  | _ => none

/-- The items of a list; anything else has none. -/
def items (d : Datum) : List Datum := d.items?.getD []

/-- The datum at an index; a missing one counts as null. -/
def nth (ds : List Datum) (index : Nat) : Datum := (ds[index]?).getD .null

def text? : Datum → Option String
  | .text s => some s
  | _ => none

def char? : Datum → Option Char
  | .char c => some c
  | _ => none

def int? : Datum → Option Int64
  | .int i => some i
  | _ => none

/-- The number an integer or a double stands for, as a double. -/
def number? : Datum → Option Float
  | .int i => some i.toFloat
  | .float x => some x
  | _ => none

/-! ## The text in a datum -/

mutual

/-- Characters and texts strung together through lists; a null adds nothing, and a
number, a truth value or a map anywhere means that there is no such text. -/
def joined? : Datum → Option (List Char)
  | .null => some []
  | .char c => some [c]
  | .text s => some s.toList
  | .list items => joinedItems? items
  | _ => none

/-- The text in a row of data. -/
def joinedItems? : List Datum → Option (List Char)
  | [] => some []
  | d :: rest =>
    match joined? d with
    | none => none
    | some front => (joinedItems? rest).map (front ++ ·)

end

/-- The text in a datum, as a string. -/
def joinedText? (d : Datum) : Option String := d.joined?.map String.ofList

/-- A datum that has a text becomes that text; any other stays as it is. -/
def asText (d : Datum) : Datum :=
  match d.joinedText? with
  | some s => .text s
  | none => d

/-! ## Equality -/

mutual

/-- Equality of data: of one kind and with equal parts, doubles by value. -/
def same : Datum → Datum → Bool
  | .null, .null => true
  | .bool a, .bool b => a == b
  | .int a, .int b => a == b
  | .float a, .float b => a == b
  | .char a, .char b => a == b
  | .text a, .text b => a == b
  | .list a, .list b => sameItems a b
  | .map a, .map b => sameEntries a b
  | _, _ => false

def sameItems : List Datum → List Datum → Bool
  | [], [] => true
  | a :: as, b :: bs => same a b && sameItems as bs
  | _, _ => false

def sameEntries : List (String × Datum) → List (String × Datum) → Bool
  | [], [] => true
  | (k, a) :: as, (l, b) :: bs => k == l && same a b && sameEntries as bs
  | _, _ => false

end

/-! ## Constants -/

mutual

/-- Whether a datum holds no map. -/
def isConstant : Datum → Bool
  | .map _ => false
  | .list items => areConstant items
  | _ => true

def areConstant : List Datum → Bool
  | [] => true
  | d :: rest => isConstant d && areConstant rest

end

/-! ## The order of a map -/

theorem keys_insertEntry_subset {key : String} {value : Datum} {entries : List (String × Datum)}
    {entry : String × Datum} (hmem : entry ∈ insertEntry key value entries) :
    entry.1 = key ∨ entry ∈ entries := by
  induction entries with
  | nil => simp_all [insertEntry]
  | cons head rest ih =>
      obtain ⟨k, v⟩ := head
      simp only [insertEntry] at hmem
      split at hmem
      · rcases List.mem_cons.mp hmem with rfl | hmem
        · exact .inl rfl
        · exact .inr hmem
      · split at hmem
        · rcases List.mem_cons.mp hmem with rfl | hmem
          · exact .inl rfl
          · exact .inr (List.mem_cons_of_mem _ hmem)
        · rcases List.mem_cons.mp hmem with rfl | hmem
          · exact .inr List.mem_cons_self
          · rcases ih hmem with same | hmem
            · exact .inl same
            · exact .inr (List.mem_cons_of_mem _ hmem)

/-- An entry is put where the order wants it. -/
theorem keysAscend_insertEntry (key : String) (value : Datum) {entries : List (String × Datum)}
    (sorted : KeysAscend entries) : KeysAscend (insertEntry key value entries) := by
  induction entries with
  | nil => simp [insertEntry, KeysAscend]
  | cons head rest ih =>
      obtain ⟨k, v⟩ := head
      have tail := List.pairwise_cons.mp sorted
      simp only [insertEntry]
      split
      · rename_i before
        refine List.pairwise_cons.mpr ⟨fun entry hmem => ?_, sorted⟩
        rcases List.mem_cons.mp hmem with rfl | hmem
        · exact before
        · exact String.lt_trans before (tail.1 entry hmem)
      · rename_i notBefore
        split
        · rename_i equal
          subst equal
          exact List.pairwise_cons.mpr ⟨tail.1, tail.2⟩
        · rename_i differ
          have after : k < key := by
            rcases Decidable.em (k < key) with after | notAfter
            · exact after
            · exact absurd (String.le_antisymm (String.not_lt.mp notAfter) (String.not_lt.mp notBefore))
                differ
          refine List.pairwise_cons.mpr ⟨fun entry hmem => ?_, ih tail.2⟩
          rcases keys_insertEntry_subset hmem with same | hmem
          · rw [same]
            exact after
          · exact tail.1 entry hmem

/-- An entry with a greater key than all others comes last. -/
theorem insertEntry_of_greatest {key : String} {value : Datum} {entries : List (String × Datum)}
    (greatest : ∀ entry ∈ entries, entry.1 < key) :
    insertEntry key value entries = entries ++ [(key, value)] := by
  induction entries with
  | nil => rfl
  | cons head rest ih =>
      obtain ⟨k, v⟩ := head
      have before : k < key := greatest (k, v) (.head _)
      rw [insertEntry, if_neg (String.lt_asymm before), if_neg (String.ne_of_lt before).symm,
        ih fun entry mem => greatest entry (.tail _ mem), List.cons_append]

/-- Entries in ascending order make up the map as they are. -/
theorem ofEntries_of_keysAscend {entries : List (String × Datum)} (ascend : KeysAscend entries) :
    ofEntries entries = .map entries := by
  suffices ∀ done, KeysAscend (done ++ entries) →
      entries.foldl (fun done entry => insertEntry entry.1 entry.2 done) done = done ++ entries by
    rw [ofEntries, this [] ascend, List.nil_append]
  clear ascend
  induction entries with
  | nil => exact fun done _ => (List.append_nil done).symm
  | cons entry rest ih =>
      intro done ascend
      have greatest : ∀ other ∈ done, other.1 < entry.1 := fun other mem =>
        (List.pairwise_append.mp ascend).2.2 other mem entry (.head _)
      rw [List.foldl_cons, insertEntry_of_greatest greatest, ih _ (by simpa using ascend)]
      simp

end Datum

end PegMachine
