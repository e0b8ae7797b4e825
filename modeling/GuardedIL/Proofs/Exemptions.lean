import GuardedIL.Exemptions
import Mathlib

/-!
# The grammar of exemptions

A text of exemptions is a list of entries with commas between them. It is accepted when every entry has
the form of a path or of a directory with `/*` behind it, and it then exempts what its entries cover, in
whatever order and however often they stand in it.
-/

namespace GuardedIL.Text

variable {x y : String} {names : List String}

theorem mem_insertDistinct : y ∈ insertDistinct x names ↔ y = x ∨ y ∈ names := by
  induction names with
  | nil => simp [insertDistinct]
  | cons z rest ih =>
    unfold insertDistinct
    split_ifs with less same
    · simp
    · simp [same]
    · rw [List.mem_cons, List.mem_cons, ih]
      tauto

theorem insertDistinct_sorted (sorted : names.Pairwise (· < ·)) :
    (insertDistinct x names).Pairwise (· < ·) := by
  induction names with
  | nil => simp [insertDistinct]
  | cons z rest ih =>
    obtain ⟨least, sortedRest⟩ := List.pairwise_cons.mp sorted
    unfold insertDistinct
    split_ifs with less same
    · refine List.pairwise_cons.mpr ⟨fun y member => ?_, sorted⟩
      rcases List.mem_cons.mp member with rfl | later
      · exact less
      · exact less.trans (least y later)
    · exact sorted
    · refine List.pairwise_cons.mpr ⟨fun y member => ?_, ih sortedRest⟩
      rcases mem_insertDistinct.mp member with rfl | later
      · exact lt_of_le_of_ne (not_lt.mp less) (Ne.symm same)
      · exact least y later

theorem mem_sortDistinct : x ∈ sortDistinct names ↔ x ∈ names := by
  induction names with
  | nil => rfl
  | cons z rest ih =>
    show x ∈ insertDistinct z (sortDistinct rest) ↔ _
    rw [mem_insertDistinct, ih, List.mem_cons]

theorem sortDistinct_sorted (names : List String) : (sortDistinct names).Pairwise (· < ·) := by
  induction names with
  | nil => exact .nil
  | cons z rest ih => exact insertDistinct_sorted ih

theorem sortDistinct_congr {names' : List String} (same : ∀ x, x ∈ names ↔ x ∈ names') :
    sortDistinct names = sortDistinct names' := by
  refine (sortDistinct_sorted names).eq_of_mem_iff (sortDistinct_sorted names') fun x => ?_
  rw [mem_sortDistinct, mem_sortDistinct, same]

/-- Halving finds every name of a sorted list. -/
theorem containsSorted_iff (sorted : names.Pairwise (· < ·)) : containsSorted x names = true ↔ x ∈ names := by
  fun_induction containsSorted x names with
  | case1 names split =>
    have empty := List.drop_eq_nil_iff.mp split
    have none : names = [] := List.eq_nil_of_length_eq_zero (by omega)
    simp [none]
  | case2 names y later split less ih =>
    rw [← List.take_append_drop (names.length / 2) names, split] at sorted ⊢
    obtain ⟨_, right, below⟩ := List.pairwise_append.mp sorted
    rw [ih (List.pairwise_cons.mp right).2, List.mem_append, List.mem_cons]
    constructor
    · exact fun member => .inr (.inr member)
    · rintro (early | rfl | member)
      · exact absurd (below x early y List.mem_cons_self) less.asymm
      · exact absurd less (lt_irrefl x)
      · exact member
  | case3 names y later split less more ih =>
    rw [ih (sorted.sublist (List.take_sublist _ _))]
    constructor
    · exact fun member => List.mem_of_mem_take member
    · intro member
      rw [← List.take_append_drop (names.length / 2) names, split] at member sorted
      obtain ⟨_, right, _⟩ := List.pairwise_append.mp sorted
      rcases List.mem_append.mp member with early | late
      · exact early
      · rcases List.mem_cons.mp late with rfl | later'
        · exact absurd more (lt_irrefl x)
        · exact absurd ((List.pairwise_cons.mp right).1 x later') more.asymm
  | case4 names y later split less more =>
    have same : x = y := le_antisymm (not_lt.mp less) (not_lt.mp more)
    have member : y ∈ names.drop (names.length / 2) := by
      rw [split]
      exact List.mem_cons_self
    simp [same, List.mem_of_mem_drop member]

end GuardedIL.Text

namespace GuardedIL

/-! ### What an exemption covers -/

/-- `core` is `cs` without the characters of one kind at its end. -/
def Stripped (kind : Char → Bool) (cs core : List Char) : Prop :=
  ∃ back, cs = core ++ back ∧ (∀ c ∈ back, kind c) ∧ ∀ c, core.getLast? = some c → ¬ kind c

theorem stripped_iff {kind : Char → Bool} {cs core : List Char} :
    Stripped kind cs core ↔ cs.rdropWhile kind = core := by
  constructor
  · rintro ⟨back, rfl, dropped, kept⟩
    have ends : core.rdropWhile kind = core := List.rdropWhile_eq_self_iff.mpr fun nonempty =>
      kept _ (List.getLast?_eq_some_getLast nonempty)
    unfold List.rdropWhile at ends ⊢
    rw [List.reverse_append, List.dropWhile_append_of_pos fun c member => dropped c (List.mem_reverse.mp member),
      ends]
  · rintro rfl
    refine ⟨cs.rtakeWhile kind, List.rdropWhile_append_rtakeWhile.symm, fun c => List.mem_rtakeWhile_imp,
      fun c last => ?_⟩
    have nonempty : cs.rdropWhile kind ≠ [] := by
      intro none
      simp [none] at last
    rw [List.getLast?_eq_some_getLast nonempty] at last
    obtain rfl := Option.some.inj last
    exact List.rdropWhile_last_not kind cs nonempty

/-- A directory stands for itself and for the paths below it, whether slashes follow it or not. -/
def Exemption.Covers (path : String) : Exemption → Prop
  | .exact p => path = p
  | .below dir => ∃ root, Stripped (· = '/') dir.toList root ∧
      (path.toList = root ∨ root ++ ['/'] <+: path.toList)

theorem isBelow_iff {path dir : String} :
    isBelow path (dropTrailingSlashes dir) = true ↔ (Exemption.below dir).Covers path := by
  have root : (dropTrailingSlashes dir).toList = dir.toList.rdropWhile (· = '/') := String.toList_ofList
  simp only [Exemption.Covers, stripped_iff, exists_eq_left', isBelow, decide_eq_true_eq, root,
    List.isPrefixOf_iff_prefix, ← String.toList_inj]

namespace Exemptions

/-- A set exempts what the entries that it is built from cover. -/
theorem isExempt_ofList {entries : List Exemption} {path : String} :
    (ofList entries).isExempt path = true ↔ ∃ x ∈ entries, x.Covers path := by
  unfold isExempt ofList
  rw [Bool.or_eq_true, Text.containsSorted_iff (Text.sortDistinct_sorted _), Text.mem_sortDistinct,
    List.any_eq_true]
  simp only [Text.mem_sortDistinct, List.mem_filterMap]
  constructor
  · rintro (⟨x, member, found⟩ | ⟨dir, ⟨x, member, found⟩, below⟩)
    · cases x with
      | exact p => exact ⟨_, member, (Option.some.inj found).symm⟩
      | below d => simp at found
    · cases x with
      | exact p => simp at found
      | below d =>
        obtain rfl := Option.some.inj found
        exact ⟨_, member, isBelow_iff.mp below⟩
  · rintro ⟨x, member, covers⟩
    cases x with
    | exact p => exact .inl ⟨_, member, congrArg some covers.symm⟩
    | below d => exact .inr ⟨_, ⟨_, member, rfl⟩, isBelow_iff.mpr covers⟩

theorem ofList_congr {entries entries' : List Exemption} (same : ∀ x, x ∈ entries ↔ x ∈ entries') :
    ofList entries = ofList entries' := by
  unfold ofList
  congr 1
  · refine Text.sortDistinct_congr fun name => ?_
    simp only [List.mem_filterMap, same]
  · refine Text.sortDistinct_congr fun name => ?_
    simp only [List.mem_filterMap, same]

/-! ### Pieces and blanks -/

theorem pieces_eq_splitOn (cs : List Char) : pieces cs = cs.splitOn ',' := by
  induction cs with
  | nil => rfl
  | cons c cs ih =>
    unfold pieces
    rw [List.splitOn, List.splitOnP_cons_eq_if_modifyHead, ← List.splitOn, ih]
    by_cases comma : c = ','
    · simp [comma]
    · simp only [comma, if_false, beq_iff_eq]
      cases split : cs.splitOn ',' with
      | nil => exact absurd split (List.splitOn_ne_nil _ _)
      | cons piece rest => rfl

/-- `entry` is `raw` without the blanks at its ends. -/
structure Trimmed (raw entry : List Char) : Prop where
  around : ∃ front back, raw = front ++ entry ++ back ∧ ∀ c ∈ front ++ back, isBlank c
  first : ∀ c, entry.head? = some c → ¬ isBlank c
  last : ∀ c, entry.getLast? = some c → ¬ isBlank c

theorem trimmed_iff {raw entry : List Char} : Trimmed raw entry ↔ trim raw = entry := by
  have two : trim raw = (raw.dropWhile isBlank).rdropWhile isBlank := rfl
  rw [two, ← stripped_iff]
  constructor
  · rintro ⟨⟨front, back, rfl, blank⟩, first, last⟩
    have blankFront : ∀ c ∈ front, isBlank c := fun c member => blank c (List.mem_append_left _ member)
    have blankBack : ∀ c ∈ back, isBlank c := fun c member => blank c (List.mem_append_right _ member)
    rw [List.append_assoc, List.dropWhile_append_of_pos blankFront]
    cases entry with
    | nil => exact ⟨[], by simpa using blankBack, by simp, last⟩
    | cons c rest =>
      rw [List.cons_append, List.dropWhile_cons_of_neg (first c rfl)]
      exact ⟨back, rfl, blankBack, last⟩
  · rintro ⟨back, rest, blankBack, last⟩
    have whole : raw = raw.takeWhile isBlank ++ entry ++ back := by
      rw [List.append_assoc, ← rest, List.takeWhile_append_dropWhile]
    refine ⟨⟨_, back, whole, fun c member => ?_⟩, fun c head => ?_, last⟩
    · rcases List.mem_append.mp member with front | back
      · exact List.mem_takeWhile_imp front
      · exact blankBack c back
    · have start := List.head?_dropWhile_not isBlank raw
      rw [rest, List.head?_append, head] at start
      simpa using start

/-! ### Entries -/

/-- An entry is a path without a star, or a directory with `/*` behind it and no other star. -/
def WellFormed (entry : List Char) : Prop :=
  entry ≠ [] ∧ entry.head? ≠ some '/' ∧ ('*' ∉ entry ∨ ∃ dir, entry = dir ++ ['/', '*'] ∧ '*' ∉ dir)

inductive Denotes : List Char → Exemption → Prop
  | exact {path : List Char} (plain : '*' ∉ path) : Denotes path (.exact (String.ofList path))
  | below {dir : List Char} (plain : '*' ∉ dir) :
    Denotes (dir ++ ['/', '*']) (.below (String.ofList dir))

/-- What is wrong with an entry; the first of the rules that it breaks counts. -/
inductive Offends : List Char → ParseError → Prop
  | empty : Offends [] .empty
  | leadingSlash {entry : List Char} (slash : entry.head? = some '/') :
    Offends entry (.leadingSlash (String.ofList entry))
  | invalid {entry : List Char} (nonempty : entry ≠ []) (relative : entry.head? ≠ some '/')
    (stars : ¬ WellFormed entry) : Offends entry (.invalid (String.ofList entry))

theorem directory?_eq_some {cs dir : List Char} : directory? cs = some dir ↔ cs = dir ++ ['/', '*'] := by
  unfold directory?
  constructor
  · intro found
    split at found
    · rename_i rest shape
      obtain rfl := Option.some.inj found
      rw [← List.reverse_reverse cs, shape]
      simp
    · simp at found
  · rintro rfl
    simp

/-- Reading an entry either gives what it denotes or the rule that it breaks. -/
theorem parseEntry_cases (entry : List Char) :
    (∃ x, parseEntry entry = .ok x ∧ WellFormed entry ∧ Denotes entry x) ∨
      ∃ e, parseEntry entry = .error e ∧ ¬ WellFormed entry ∧ Offends entry e := by
  unfold parseEntry
  dsimp only
  by_cases empty : entry = []
  · subst empty
    exact .inr ⟨_, rfl, fun formed => formed.1 rfl, .empty⟩
  rw [if_neg (by simpa using empty)]
  by_cases slash : entry.head? = some '/'
  · rw [if_pos slash]
    exact .inr ⟨_, rfl, fun formed => formed.2.1 slash, .leadingSlash slash⟩
  rw [if_neg slash]
  cases found : directory? entry with
  | some dir =>
    obtain rfl := directory?_eq_some.mp found
    -- The directory has a first character, as the entry would begin with a slash otherwise.
    have inside : dir ≠ [] := by
      rintro rfl
      exact slash rfl
    by_cases star : '*' ∈ dir
    · have refused : ¬ WellFormed (dir ++ ['/', '*']) := by
        rintro ⟨_, _, plain | ⟨other, same, plain⟩⟩
        · exact plain (by simp)
        · exact plain (List.append_cancel_right same ▸ star)
      exact .inr ⟨_, if_pos (.inr (by simpa using star)), refused, .invalid empty slash refused⟩
    · exact .inl ⟨_, if_neg (by simp [inside, star]), ⟨empty, slash, .inr ⟨dir, rfl, star⟩⟩, .below star⟩
  | none =>
    have single : ∀ dir, entry ≠ dir ++ ['/', '*'] := fun dir shape => by
      rw [directory?_eq_some.mpr shape] at found
      simp at found
    by_cases star : '*' ∈ entry
    · have refused : ¬ WellFormed entry := by
        rintro ⟨_, _, plain | ⟨dir, shape, _⟩⟩
        · exact plain star
        · exact single dir shape
      exact .inr ⟨_, if_pos (by simpa using star), refused, .invalid empty slash refused⟩
    · exact .inl ⟨_, if_neg (by simpa using star), ⟨empty, slash, .inl star⟩, .exact star⟩

theorem Denotes.unique {entry : List Char} {x y : Exemption} (first : Denotes entry x)
    (second : Denotes entry y) : x = y := by
  cases first with
  | exact plain =>
    cases second with
    | exact => rfl
    | below => exact absurd (by simp) plain
  | @below dir plain =>
    generalize shape : dir ++ ['/', '*'] = entry at second
    cases second with
    | exact plain' => exact absurd (by simp [← shape]) plain'
    | below => rw [List.append_cancel_right shape]

theorem parseEntry_ok {entry : List Char} {x : Exemption} (ok : parseEntry entry = .ok x) :
    WellFormed entry ∧ Denotes entry x := by
  obtain ⟨y, read, formed, denotes⟩ | ⟨e, read, _⟩ := parseEntry_cases entry
  · obtain rfl := Except.ok.inj (read.symm.trans ok)
    exact ⟨formed, denotes⟩
  · simp [read] at ok

theorem parseEntry_error {entry : List Char} {e : ParseError} (failed : parseEntry entry = .error e) :
    ¬ WellFormed entry ∧ Offends entry e := by
  obtain ⟨x, read, _⟩ | ⟨e', read, refused, offends⟩ := parseEntry_cases entry
  · simp [read] at failed
  · obtain rfl := Except.error.inj (read.symm.trans failed)
    exact ⟨refused, offends⟩

theorem wellFormed_iff {entry : List Char} : WellFormed entry ↔ ∃ x, parseEntry entry = .ok x := by
  constructor
  · intro formed
    cases read : parseEntry entry with
    | ok x => exact ⟨x, rfl⟩
    | error e => exact absurd formed (parseEntry_error read).1
  · rintro ⟨x, ok⟩
    exact (parseEntry_ok ok).1

theorem Offends.unique {entry : List Char} {e e' : ParseError} (first : Offends entry e)
    (second : Offends entry e') : e = e' := by
  cases first <;> cases second <;> simp_all

theorem parseEntry_of_offends {entry : List Char} {e : ParseError} (offends : Offends entry e) :
    parseEntry entry = .error e := by
  cases read : parseEntry entry with
  | ok x =>
    obtain ⟨formed, _⟩ := parseEntry_ok read
    cases offends with
    | empty => exact absurd rfl formed.1
    | leadingSlash slash => exact absurd slash formed.2.1
    | invalid _ _ stars => exact absurd formed stars
  | error e' => rw [(parseEntry_error read).2.unique offends]

/-! ### Texts -/

theorem parseEntries_ok {raws : List (List Char)} {entries : List Exemption} :
    parseEntries raws = .ok entries ↔ raws.map (fun raw => parseEntry (trim raw)) = entries.map .ok := by
  induction raws generalizing entries with
  | nil => cases entries <;> simp [parseEntries]
  | cons raw rest ih =>
    rw [parseEntries, List.map_cons]
    cases read : parseEntry (trim raw) with
    | error e => cases entries <;> simp [bind, Except.bind]
    | ok x =>
      cases others : parseEntries rest with
      | error e =>
        have refused : ∀ xs : List Exemption,
            rest.map (fun raw => parseEntry (trim raw)) ≠ xs.map .ok := fun xs same => by
          simp [ih.mpr same] at others
        cases entries <;> simp [bind, Except.bind, refused]
      | ok xs =>
        rw [ih.mp others]
        cases entries <;>
          simp [bind, Except.bind, pure, Except.pure, (List.map_injective_iff.mpr fun _ _ => Except.ok.inj).eq_iff]

/-- The first member with `Q`, behind members with `P` only, is the head or is found in the tail. -/
theorem exists_first_cons {α : Type} {P Q : α → Prop} {x : α} {xs : List α} :
    (∃ before y after, x :: xs = before ++ y :: after ∧ (∀ z ∈ before, P z) ∧ Q y) ↔
      Q x ∨ P x ∧ ∃ before y after, xs = before ++ y :: after ∧ (∀ z ∈ before, P z) ∧ Q y := by
  constructor
  · rintro ⟨before, y, after, shape, early, found⟩
    cases before with
    | nil =>
      obtain ⟨rfl, rfl⟩ := List.cons.inj shape
      exact .inl found
    | cons z before =>
      obtain ⟨rfl, rfl⟩ := List.cons.inj shape
      obtain ⟨here, later⟩ := List.forall_mem_cons.mp early
      exact .inr ⟨here, before, y, after, rfl, later, found⟩
  · rintro (found | ⟨here, before, y, after, rfl, later, found⟩)
    · exact ⟨[], x, xs, rfl, by simp, found⟩
    · exact ⟨x :: before, y, after, rfl, List.forall_mem_cons.mpr ⟨here, later⟩, found⟩

theorem parseEntries_error {raws : List (List Char)} {e : ParseError} :
    parseEntries raws = .error e ↔ ∃ before raw after, raws = before ++ raw :: after ∧
      (∀ r ∈ before, ∃ x, parseEntry (trim r) = .ok x) ∧ parseEntry (trim raw) = .error e := by
  induction raws with
  | nil => simp [parseEntries]
  | cons first rest ih =>
    rw [exists_first_cons, ← ih, parseEntries]
    cases parseEntry (trim first) with
    | error e' => simp [bind, Except.bind]
    | ok x => cases parseEntries rest <;> simp [bind, Except.bind, pure, Except.pure]

/-- The segments between the commas of a text; a text without commas is one segment. -/
def segments (text : String) : List (List Char) :=
  text.toList.splitOn ','

theorem parse_ok {text : String} {e : Exemptions} : parse text = .ok e ↔ ∃ entries,
    (segments text).map (fun raw => parseEntry (trim raw)) = entries.map .ok ∧ e = ofList entries := by
  rw [parse, pieces_eq_splitOn, ← segments]
  simp only [← parseEntries_ok]
  cases parseEntries (segments text) <;> simp [bind, Except.bind, pure, Except.pure, eq_comm]

theorem parse_error {text : String} {err : ParseError} :
    parse text = .error err ↔ parseEntries (segments text) = .error err := by
  rw [parse, pieces_eq_splitOn, ← segments]
  cases parseEntries (segments text) <;> simp [bind, Except.bind, pure, Except.pure]

theorem mem_entries {raws : List (List Char)} {entries : List Exemption}
    (read : raws.map (fun raw => parseEntry (trim raw)) = entries.map .ok) {x : Exemption} :
    x ∈ entries ↔ ∃ raw ∈ raws, parseEntry (trim raw) = .ok x := by
  rw [← List.mem_map, read, List.mem_map_of_injective fun _ _ => Except.ok.inj]

theorem parse_isOk {text : String} :
    (∃ e, parse text = .ok e) ↔ ∀ raw ∈ segments text, WellFormed (trim raw) := by
  constructor
  · rintro ⟨e, ok⟩ raw member
    obtain ⟨entries, read, _⟩ := parse_ok.mp ok
    have result : parseEntry (trim raw) ∈ entries.map .ok := read ▸ List.mem_map_of_mem member
    obtain ⟨x, _, same⟩ := List.mem_map.mp result
    exact wellFormed_iff.mpr ⟨x, same.symm⟩
  · intro formed
    cases failed : parse text with
    | ok e => exact ⟨e, rfl⟩
    | error err =>
      obtain ⟨before, raw, after, shape, _, refused⟩ := parseEntries_error.mp (parse_error.mp failed)
      exact absurd (formed raw (by simp [shape])) (parseEntry_error refused).1

/-- The order and the number of segments do not matter. -/
theorem parse_congr {text other : String} (same : ∀ raw, raw ∈ segments text ↔ raw ∈ segments other)
    {e : Exemptions} (ok : parse text = .ok e) : parse other = .ok e := by
  have formed := parse_isOk.mp ⟨e, ok⟩
  obtain ⟨e', ok'⟩ := parse_isOk.mpr fun raw member => formed raw ((same raw).mpr member)
  obtain ⟨entries, read, rfl⟩ := parse_ok.mp ok
  obtain ⟨entries', read', rfl⟩ := parse_ok.mp ok'
  rw [ok', ofList_congr fun x => ?_]
  rw [mem_entries read, mem_entries read']
  simp only [same]

/-- A text is accepted when each of its segments is an entry of the grammar, and refused for the first
that is not. What it exempts is what its entries cover, and only the set of its segments counts. Sets that
are built from entries exempt by the same rule. -/
theorem parse_follows_grammar (text : String) :
    ((∃ e, parse text = .ok e) ↔
      ∀ raw ∈ segments text, ∃ entry, Trimmed raw entry ∧ WellFormed entry) ∧
    (∀ err, parse text = .error err ↔ ∃ before raw after entry,
      segments text = before ++ raw :: after ∧
      (∀ r ∈ before, ∃ entry, Trimmed r entry ∧ WellFormed entry) ∧
      Trimmed raw entry ∧ Offends entry err) ∧
    (∀ e path, parse text = .ok e → (e.isExempt path = true ↔
      ∃ raw ∈ segments text, ∃ entry x, Trimmed raw entry ∧ Denotes entry x ∧ x.Covers path)) ∧
    (∀ other, (∀ raw, raw ∈ segments text ↔ raw ∈ segments other) →
      (parse other).toOption = (parse text).toOption) ∧
    ∀ entries path, (ofList entries).isExempt path = true ↔ ∃ x ∈ entries, x.Covers path := by
  simp only [trimmed_iff, exists_eq_left']
  refine ⟨parse_isOk, fun err => ?_, fun e path ok => ?_, fun other same => ?_, fun _ _ => isExempt_ofList⟩
  · rw [parse_error, parseEntries_error]
    simp only [wellFormed_iff]
    constructor
    · rintro ⟨before, raw, after, shape, early, failed⟩
      exact ⟨before, raw, after, _, shape, early, rfl, (parseEntry_error failed).2⟩
    · rintro ⟨before, raw, after, _, shape, early, rfl, offends⟩
      exact ⟨before, raw, after, shape, early, parseEntry_of_offends offends⟩
  · obtain ⟨entries, read, rfl⟩ := parse_ok.mp ok
    rw [isExempt_ofList]
    simp only [mem_entries read]
    constructor
    · rintro ⟨x, ⟨raw, member, entry⟩, covers⟩
      exact ⟨raw, member, _, x, rfl, (parseEntry_ok entry).2, covers⟩
    · rintro ⟨raw, member, _, x, rfl, denotes, covers⟩
      obtain ⟨y, entry⟩ := wellFormed_iff.mp (parse_isOk.mp ⟨_, ok⟩ raw member)
      rw [(parseEntry_ok entry).2.unique denotes] at entry
      exact ⟨x, ⟨raw, member, entry⟩, covers⟩
  · cases read : parse text with
    | ok e => rw [parse_congr same read]
    | error err =>
      cases read' : parse other with
      | ok e' => simp [parse_congr (fun raw => (same raw).symm) read'] at read
      | error err' => rfl

end Exemptions

end GuardedIL
