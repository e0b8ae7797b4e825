import GuardedIL.Proofs.Exemptions

/-!
# Exemptions as text

The text of a set of exemptions is read back as that set exactly when every entry can be told from its
surroundings there: it is not empty, has no comma and no star, and begins and ends with characters that
reading keeps (`text_round_trip`). What is read from a text always can.
-/

namespace GuardedIL

theorem stripped_dropTrailingSlashes (dir : String) :
    Stripped (· = '/') dir.toList (dropTrailingSlashes dir).toList := by
  rw [stripped_iff]
  exact String.toList_ofList.symm

theorem dropTrailingSlashes_idem (dir : String) :
    dropTrailingSlashes (dropTrailingSlashes dir) = dropTrailingSlashes dir := by
  have once := stripped_iff.mp (stripped_dropTrailingSlashes dir)
  have twice := stripped_iff.mp (stripped_dropTrailingSlashes (dropTrailingSlashes dir))
  rw [← String.toList_inj, ← twice, ← once, List.rdropWhile_idempotent]

namespace Exemptions

/-! ### Entries that a text can hold -/

/-- An entry that stands between commas as it is, up to what follows it. -/
structure Spelled (entry : List Char) : Prop where
  nonempty : entry ≠ []
  comma : ',' ∉ entry
  star : '*' ∉ entry
  first : ∀ c, entry.head? = some c → c ≠ '/' ∧ ¬ isBlank c

/-- A directory is followed by `/*`, so only a path may not end with a blank. -/
structure Writable (e : Exemptions) : Prop where
  nonempty : e.exact ≠ [] ∨ e.below ≠ []
  exact : ∀ path ∈ e.exact, Spelled path.toList ∧ ∀ c, path.toList.getLast? = some c → ¬ isBlank c
  below : ∀ dir ∈ e.below, Spelled dir.toList

theorem Spelled.relative {entry : List Char} (spelled : Spelled entry) : entry.head? ≠ some '/' := by
  intro slash
  exact (spelled.first '/' slash).1 rfl

theorem parseEntry_of_denotes {entry : List Char} {x : Exemption} (formed : WellFormed entry)
    (denotes : Denotes entry x) : parseEntry entry = .ok x := by
  obtain ⟨y, read⟩ := wellFormed_iff.mp formed
  rw [read, (parseEntry_ok read).2.unique denotes]

theorem trim_eq_self {entry : List Char} (first : ∀ c, entry.head? = some c → ¬ isBlank c)
    (last : ∀ c, entry.getLast? = some c → ¬ isBlank c) : trim entry = entry :=
  trimmed_iff.mp ⟨⟨[], [], by simp, by simp⟩, first, last⟩

theorem parseEntry_path {path : String} (spelled : Spelled path.toList)
    (last : ∀ c, path.toList.getLast? = some c → ¬ isBlank c) :
    parseEntry (trim path.toList) = .ok (.exact path) := by
  rw [trim_eq_self (fun c head => (spelled.first c head).2) last]
  have denotes : Denotes path.toList (.exact (String.ofList path.toList)) := .exact spelled.star
  rw [String.ofList_toList] at denotes
  exact parseEntry_of_denotes ⟨spelled.nonempty, spelled.relative, .inl spelled.star⟩ denotes

theorem parseEntry_directory {dir : String} (spelled : Spelled dir.toList) :
    parseEntry (trim (dir ++ "/*").toList) = .ok (.below dir) := by
  have written : (dir ++ "/*").toList = dir.toList ++ ['/', '*'] := String.toList_append
  have head : (dir.toList ++ ['/', '*']).head? = dir.toList.head? := by
    obtain ⟨c, rest, shape⟩ := List.exists_cons_of_ne_nil spelled.nonempty
    rw [shape]
    rfl
  -- The star at the end is no blank, whatever the directory ends with.
  have kept : trim (dir.toList ++ ['/', '*']) = dir.toList ++ ['/', '*'] := by
    apply trim_eq_self
    · intro c first
      exact (spelled.first c (head ▸ first)).2
    · intro c last
      obtain rfl : '*' = c := by simpa using last
      decide
  have denotes : Denotes (dir.toList ++ ['/', '*']) (.below (String.ofList dir.toList)) :=
    .below spelled.star
  rw [String.ofList_toList] at denotes
  rw [written, kept]
  exact parseEntry_of_denotes
    ⟨by simp, head ▸ spelled.relative, .inr ⟨_, rfl, spelled.star⟩⟩ denotes

/-! ### Writing and splitting -/

theorem toList_foldl_appendItem {written : String} {items : List String} (started : written ≠ "") :
    (items.foldl appendItem written).toList =
      [','].intercalate (written.toList :: items.map String.toList) := by
  induction items generalizing written with
  | nil => simp
  | cons item rest ih =>
    have next : appendItem written item = written ++ "," ++ item := by
      unfold appendItem
      rw [if_neg (by simpa using started)]
    have grown : written ++ "," ++ item ≠ "" := by simp
    rw [List.foldl_cons, next, ih grown, List.map_cons, List.intercalate_cons_cons]
    cases rest with
    | nil => simp
    | cons later rest => simp [List.intercalate_cons_cons]

/-- The items of a text, with a comma between any two. -/
theorem segments_text {e : Exemptions} (nonempty : e.exact ≠ [] ∨ e.below ≠ [])
    (spelled : ∀ item ∈ e.exact ++ e.below.map (· ++ "/*"), item ≠ "" ∧ ',' ∉ item.toList) :
    segments e.text = (e.exact ++ e.below.map (· ++ "/*")).map String.toList := by
  unfold segments text
  cases items : e.exact ++ e.below.map (· ++ "/*") with
  | nil => simp_all
  | cons first rest =>
    rw [items] at spelled
    have started := (spelled first List.mem_cons_self).1
    have begun : appendItem "" first = first := by simp [appendItem]
    rw [List.foldl_cons, begun, toList_foldl_appendItem started, ← List.map_cons]
    apply List.splitOn_intercalate
    · intro raw member
      obtain ⟨item, inside, rfl⟩ := List.mem_map.mp member
      exact (spelled item inside).2
    · simp

theorem comma_not_mem_segment {text : String} {raw : List Char} (member : raw ∈ segments text) :
    ',' ∉ raw := by
  rw [segments, ← pieces_eq_splitOn] at member
  generalize text.toList = cs at member
  induction cs generalizing raw with
  | nil =>
    obtain rfl : raw = [] := by simpa [pieces] using member
    simp
  | cons c cs ih =>
    unfold pieces at member
    split_ifs at member with comma
    · rcases List.mem_cons.mp member with rfl | later
      · simp
      · exact ih later
    · split at member
      · obtain rfl : raw = [c] := by simpa using member
        simpa using Ne.symm comma
      · rename_i piece rest split
        rcases List.mem_cons.mp member with rfl | later
        · have tail := ih (split ▸ List.mem_cons_self)
          simp [tail, Ne.symm comma]
        · exact ih (split ▸ List.mem_cons_of_mem _ later)

/-! ### The entries of a set -/

def entries (e : Exemptions) : List Exemption :=
  e.exact.map .exact ++ e.below.map .below

theorem mem_exact_ofList {calls : List Exemption} {path : String} :
    path ∈ (ofList calls).exact ↔ .exact path ∈ calls := by
  unfold ofList
  rw [Text.mem_sortDistinct, List.mem_filterMap]
  constructor
  · rintro ⟨x, member, found⟩
    cases x with
    | exact p => exact Option.some.inj found ▸ member
    | below dir => simp at found
  · intro member
    exact ⟨_, member, rfl⟩

theorem mem_below_ofList {calls : List Exemption} {dir : String} :
    dir ∈ (ofList calls).below ↔ ∃ d, .below d ∈ calls ∧ dropTrailingSlashes d = dir := by
  unfold ofList
  rw [Text.mem_sortDistinct, List.mem_filterMap]
  constructor
  · rintro ⟨x, member, found⟩
    cases x with
    | exact p => simp at found
    | below d => exact ⟨d, member, Option.some.inj found⟩
  · rintro ⟨d, member, rfl⟩
    exact ⟨_, member, rfl⟩

/-- A set that was built is built again from the entries it lists. -/
theorem ofList_entries (calls : List Exemption) : ofList (ofList calls).entries = ofList calls := by
  have sortedExact : (ofList calls).exact.Pairwise (· < ·) := Text.sortDistinct_sorted _
  have sortedBelow : (ofList calls).below.Pairwise (· < ·) := Text.sortDistinct_sorted _
  have sameExact : (ofList (ofList calls).entries).exact = (ofList calls).exact := by
    refine List.Pairwise.eq_of_mem_iff (Text.sortDistinct_sorted _) sortedExact fun path => ?_
    rw [mem_exact_ofList]
    simp [entries]
  have sameBelow : (ofList (ofList calls).entries).below = (ofList calls).below := by
    refine List.Pairwise.eq_of_mem_iff (Text.sortDistinct_sorted _) sortedBelow fun dir => ?_
    rw [mem_below_ofList]
    constructor
    · rintro ⟨d, listed, rfl⟩
      have member : d ∈ (ofList calls).below := by simpa [entries] using listed
      obtain ⟨original, _, rfl⟩ := mem_below_ofList.mp member
      rwa [dropTrailingSlashes_idem]
    · intro member
      obtain ⟨original, _, rfl⟩ := mem_below_ofList.mp member
      exact ⟨_, by simpa [entries] using member, dropTrailingSlashes_idem original⟩
  calc ofList (ofList calls).entries
      = ⟨(ofList (ofList calls).entries).exact, (ofList (ofList calls).entries).below⟩ := rfl
    _ = ⟨(ofList calls).exact, (ofList calls).below⟩ := by rw [sameExact, sameBelow]

theorem Writable.item_spelled {e : Exemptions} (writable : e.Writable) :
    ∀ item ∈ e.exact ++ e.below.map (· ++ "/*"), item ≠ "" ∧ ',' ∉ item.toList := by
  intro item member
  rcases List.mem_append.mp member with path | directory
  · have spelled := (writable.exact item path).1
    exact ⟨fun empty => spelled.nonempty (by simp [empty]), spelled.comma⟩
  · obtain ⟨dir, inside, rfl⟩ := List.mem_map.mp directory
    have spelled := writable.below dir inside
    simp [String.toList_append, spelled.comma]

theorem parse_text_of_writable {calls : List Exemption} (writable : (ofList calls).Writable) :
    parse (ofList calls).text = .ok (ofList calls) := by
  refine parse_ok.mpr ⟨(ofList calls).entries, ?_, (ofList_entries calls).symm⟩
  rw [segments_text writable.nonempty writable.item_spelled, entries]
  simp only [List.map_append, List.map_map]
  congr 1
  · refine List.map_congr_left fun path member => ?_
    obtain ⟨spelled, last⟩ := writable.exact path member
    exact parseEntry_path spelled last
  · refine List.map_congr_left fun dir member => ?_
    exact parseEntry_directory (writable.below dir member)

/-! ### What is read from a text -/

theorem Trimmed.mem {raw entry : List Char} (trimmed : Trimmed raw entry) {c : Char} (inside : c ∈ entry) :
    c ∈ raw := by
  obtain ⟨front, back, rfl, _⟩ := trimmed.around
  exact List.mem_append_left _ (List.mem_append_right _ inside)

theorem spelled_of_read {raw : List Char} {path : String} (comma : ',' ∉ raw)
    (read : parseEntry (trim raw) = .ok (.exact path)) :
    Spelled path.toList ∧ ∀ c, path.toList.getLast? = some c → ¬ isBlank c := by
  obtain ⟨⟨nonempty, relative, _⟩, denotes⟩ := parseEntry_ok read
  have trimmed : Trimmed raw (trim raw) := trimmed_iff.mpr rfl
  generalize trim raw = entry at *
  cases denotes with
  | exact plain =>
    rw [String.toList_ofList]
    refine ⟨⟨nonempty, ?_, plain, ?_⟩, trimmed.last⟩
    · intro inside
      exact comma (trimmed.mem inside)
    · intro c head
      refine ⟨?_, trimmed.first c head⟩
      rintro rfl
      exact relative head

theorem spelled_of_read_below {raw : List Char} {dir : String} (comma : ',' ∉ raw)
    (read : parseEntry (trim raw) = .ok (.below dir)) : Spelled (dropTrailingSlashes dir).toList := by
  obtain ⟨⟨_, relative, _⟩, denotes⟩ := parseEntry_ok read
  have trimmed : Trimmed raw (trim raw) := trimmed_iff.mpr rfl
  obtain ⟨slashes, whole, only, _⟩ := stripped_dropTrailingSlashes dir
  generalize trim raw = entry at *
  generalize (dropTrailingSlashes dir).toList = root at *
  cases denotes with
  | @below cs plain =>
    rw [String.toList_ofList] at whole
    subst whole
    -- Without a root the entry would begin with a slash.
    have rooted : root ≠ [] := by
      rintro rfl
      cases slashes with
      | nil => exact relative rfl
      | cons c rest =>
        have slash : c = '/' := of_decide_eq_true (only c List.mem_cons_self)
        exact relative (by rw [slash]; rfl)
    obtain ⟨c, rest, rfl⟩ := List.exists_cons_of_ne_nil rooted
    refine ⟨rooted, ?_, ?_, ?_⟩
    · intro inside
      exact comma (trimmed.mem (List.mem_append_left _ (List.mem_append_left _ inside)))
    · intro inside
      exact plain (List.mem_append_left _ inside)
    · intro d head
      obtain rfl : c = d := by simpa using head
      refine ⟨?_, trimmed.first c rfl⟩
      rintro rfl
      exact relative rfl

theorem writable_of_parse {text : String} {e : Exemptions} (ok : parse text = .ok e) : e.Writable := by
  obtain ⟨calls, read, rfl⟩ := parse_ok.mp ok
  refine ⟨?_, fun path member => ?_, fun dir member => ?_⟩
  · have some : calls ≠ [] := by
      rintro rfl
      exact List.splitOn_ne_nil _ _ (List.map_eq_nil_iff.mp read)
    obtain ⟨x, rest, rfl⟩ := List.exists_cons_of_ne_nil some
    cases x with
    | exact path => exact .inl (List.ne_nil_of_mem (mem_exact_ofList.mpr List.mem_cons_self))
    | below dir => exact .inr (List.ne_nil_of_mem (mem_below_ofList.mpr ⟨dir, List.mem_cons_self, rfl⟩))
  · obtain ⟨raw, segment, entry⟩ := (mem_entries read).mp (mem_exact_ofList.mp member)
    exact spelled_of_read (comma_not_mem_segment segment) entry
  · obtain ⟨d, listed, rfl⟩ := mem_below_ofList.mp member
    obtain ⟨raw, segment, entry⟩ := (mem_entries read).mp listed
    exact spelled_of_read_below (comma_not_mem_segment segment) entry

/-- The text of a set that was built is read back as the set exactly if every entry can be written. What is
read from a text can be written, so reading its text again gives the same set. -/
theorem text_round_trip (calls : List Exemption) :
    (parse (ofList calls).text = .ok (ofList calls) ↔ (ofList calls).Writable) ∧
    ∀ text e, parse text = .ok e → e.Writable ∧ parse e.text = .ok e := by
  refine ⟨⟨writable_of_parse, parse_text_of_writable⟩, fun text e ok => ?_⟩
  have writable := writable_of_parse ok
  obtain ⟨read, _, rfl⟩ := parse_ok.mp ok
  exact ⟨writable, parse_text_of_writable writable⟩

end Exemptions

end GuardedIL
