import GuardedIL.Proofs.Bytes
import GuardedIL.Proofs.Sorting
import GuardedIL.Syntax.Printer

/-!
# Canonical text

External functions and globals that have different names can be put in order of their names in one way only.
The canonical text of a program is its text in that order, so it is the same for every order of the
declarations (`canonical_text_order_free`). Declarations of one name may change places, even if they are in
order (`equal_names_change_places`).
-/

namespace GuardedIL.Text

theorem utf8_le_utf8 {s t : String} : utf8 s ≤ utf8 t ↔ s ≤ t := by
  rw [← not_lt, ← utf8_lt_utf8]
  exact Iff.rfl

end GuardedIL.Text

namespace GuardedIL.Program

/-! ### Declarations in another order -/

/-- The programs differ at most in the order of their external functions and of their globals. -/
structure Reorders (p q : Program) : Prop where
  version : p.version = q.version
  package : p.package = q.package
  funcs : p.funcs = q.funcs
  externs : p.externs.Perm q.externs
  globals : p.globals.Perm q.globals

structure DistinctNames (p : Program) : Prop where
  externs : (p.externs.map Extern.name).Nodup
  globals : (p.globals.map Global.name).Nodup

/-- External functions and globals stand in the order of the bytes of their names. -/
structure InByteOrder (p : Program) : Prop where
  externs : p.externs.Pairwise fun d e => Text.utf8 d.name ≤ Text.utf8 e.name
  globals : p.globals.Pairwise fun d e => Text.utf8 d.name ≤ Text.utf8 e.name

variable {p q r : Program}

theorem Reorders.trans (first : p.Reorders q) (second : q.Reorders r) : p.Reorders r where
  version := first.version.trans second.version
  package := first.package.trans second.package
  funcs := first.funcs.trans second.funcs
  externs := first.externs.trans second.externs
  globals := first.globals.trans second.globals

theorem reorders_canonical (p : Program) : p.Reorders p.canonical where
  version := rfl
  package := rfl
  funcs := rfl
  externs := (Text.sortByName_perm Extern.name p.externs).symm
  globals := (Text.sortByName_perm Global.name p.globals).symm

theorem canonical_inByteOrder (p : Program) : p.canonical.InByteOrder where
  externs := (Text.sortByName_sorted Extern.name p.externs).imp Text.utf8_le_utf8.mpr
  globals := (Text.sortByName_sorted Global.name p.globals).imp Text.utf8_le_utf8.mpr

theorem canonical_unique (same : p.Reorders q) (distinct : p.DistinctNames) (ordered : q.InByteOrder) :
    p.canonical = q := by
  have externs := Text.sortByName_unique distinct.externs same.externs
    (ordered.externs.imp Text.utf8_le_utf8.mp)
  have globals := Text.sortByName_unique distinct.globals same.globals
    (ordered.globals.imp Text.utf8_le_utf8.mp)
  unfold canonical
  rw [externs, globals, same.version, same.package, same.funcs]

theorem Reorders.refl (p : Program) : p.Reorders p :=
  ⟨rfl, rfl, rfl, .refl _, .refl _⟩

/-- The canonical text is the text of the program with its declarations in the order of their names as bytes.
If their names differ, it is the same text for every order of the declarations, and a program in that order has
its own text as canonical text. -/
theorem canonical_text_order_free (p : Program) :
    (∀ q, p.Reorders q → p.DistinctNames →
      p.canonical.text = q.canonical.text ∧ (q.InByteOrder → p.canonical.text = q.text)) ∧
    (p.Reorders p.canonical ∧ p.canonical.InByteOrder) ∧
    (p.InByteOrder → p.DistinctNames → p.canonical.text = p.text) := by
  refine ⟨fun q same distinct => ⟨?_, fun ordered => ?_⟩, ?_, fun ordered distinct => ?_⟩
  · rw [canonical_unique (same.trans (reorders_canonical q)) distinct (canonical_inByteOrder q)]
  · rw [canonical_unique same distinct ordered]
  · exact ⟨reorders_canonical p, canonical_inByteOrder p⟩
  · rw [canonical_unique (.refl p) distinct ordered]

/-- Declarations out of order, some with names outside ASCII. -/
def untidyDeclarations : Program where
  externs := [⟨"𝄞", .void, []⟩, ⟨"～", .i64, [.i8]⟩, ⟨"zeta", .void, []⟩]
  globals := [⟨"tail", .str, "b"⟩, ⟨"head", .str, "a\n"⟩]

def tidyDeclarations : Program where
  externs := [⟨"zeta", .void, []⟩, ⟨"～", .i64, [.i8]⟩, ⟨"𝄞", .void, []⟩]
  globals := [⟨"head", .str, "a\n"⟩, ⟨"tail", .str, "b"⟩]

theorem canonical_text_order_free_untidy :
    untidyDeclarations.Reorders tidyDeclarations ∧ untidyDeclarations.DistinctNames ∧
    tidyDeclarations.InByteOrder ∧ untidyDeclarations.canonical.text = tidyDeclarations.text ∧
    tidyDeclarations.canonical.text = tidyDeclarations.text := by
  have same : untidyDeclarations.Reorders tidyDeclarations :=
    ⟨rfl, rfl, rfl, by decide, by decide⟩
  have distinct : untidyDeclarations.DistinctNames := ⟨by decide, by decide⟩
  have ordered : tidyDeclarations.InByteOrder := ⟨by decide, by decide⟩
  exact ⟨same, distinct, ordered,
    ((canonical_text_order_free untidyDeclarations).1 tidyDeclarations same distinct).2 ordered,
    (canonical_text_order_free tidyDeclarations).2.2 ordered ⟨by decide, by decide⟩⟩

/-- One external function too many to be sorted by insertion alone, all of one name. -/
def crowdedDeclarations : Program where
  externs := (List.range 17).map fun n => ⟨"f", .void, List.replicate n .i8⟩

theorem equal_names_change_places :
    crowdedDeclarations.InByteOrder ∧ crowdedDeclarations.canonical.text ≠ crowdedDeclarations.text := by
  have ordered : crowdedDeclarations.InByteOrder := ⟨by decide, by decide⟩
  exact ⟨ordered, by decide +kernel⟩

end GuardedIL.Program
