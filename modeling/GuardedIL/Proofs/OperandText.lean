import GuardedIL.Proofs.Bytes
import GuardedIL.Syntax.Operand

/-!
# The text of operands

The text of an operand identifies it (`text_identifies`). The first character tells the six forms apart, and
a literal can be read back from its text one character at a time. The strings of an operand may be any bytes:
what is written for their text is written for their bytes, one by one.
-/

namespace GuardedIL.Text.Literal

/-! ### Characters in a literal -/

theorem isControl_eq_false {c : Char} : isControl c = false ↔ 0x20 ≤ c.toNat ∧ c.toNat ≠ 0x7F := by
  unfold isControl
  rw [Bool.or_eq_false_iff, decide_eq_false_iff_not, beq_eq_false_iff_ne, Nat.not_lt]

/-- The ways in which a literal spells a character. -/
inductive Spells : Char → List Char → Prop where
  | marked {c : Char} (special : c = '\\' ∨ c = '"') : Spells c ['\\', c]
  | lineFeed : Spells '\n' ['\\', 'n']
  | coded {c : Char} (ascii : c.toNat < 0x80) :
      Spells c ['\\', 'x', hexDigit (c.toNat / 16), hexDigit (c.toNat % 16)]
  | plain {c : Char} (unmarked : ¬ (c = '\\' ∨ c = '"')) (visible : isControl c = false) : Spells c [c]

theorem escapeChar_spells (c : Char) : Spells c (escapeChar c) := by
  unfold escapeChar
  split_ifs with special lineFeed control
  · exact .marked special
  · exact lineFeed ▸ .lineFeed
  · refine .coded ?_
    by_contra wide
    have visible : isControl c = false := isControl_eq_false.mpr (by omega)
    exact absurd control (by simp [visible])
  · exact .plain special (by simpa using control)

theorem escapeChar_of_le {c : Char} (wide : 0x80 ≤ c.toNat) : escapeChar c = [c] := by
  have written := escapeChar_spells c
  generalize escapeChar c = cs at written ⊢
  cases written with
  | marked special =>
    rcases special with rfl | rfl
    all_goals exact absurd wide (by decide)
  | lineFeed => exact absurd wide (by decide)
  | coded ascii => omega
  | plain => rfl

/-- The value of a hexadecimal digit. -/
def hexValue (c : Char) : Nat :=
  if c.toNat < 58 then c.toNat - 48 else c.toNat - 55

theorem hexValue_hexDigit : ∀ n < 16, hexValue (hexDigit n) = n := by
  decide

theorem hexDigit_visible : ∀ n < 16, isControl (hexDigit n) = false ∧ (hexDigit n).toNat < 0x80 := by
  decide

variable {c d : Char} {cs : List Char}

theorem Spells.visible (written : Spells c cs) : ∀ d ∈ cs, isControl d = false ∧ (d = c ∨ d.toNat < 0x80) := by
  cases written with
  | marked special => rcases special with rfl | rfl <;> simp [isControl]
  | lineFeed => simp [isControl]
  | coded ascii =>
    obtain ⟨highVisible, high⟩ := hexDigit_visible (c.toNat / 16) (by omega)
    obtain ⟨lowVisible, low⟩ := hexDigit_visible (c.toNat % 16) (by omega)
    simp only [List.forall_mem_cons]
    exact ⟨⟨rfl, .inr (by decide)⟩, ⟨rfl, .inr (by decide)⟩, ⟨highVisible, .inr high⟩, ⟨lowVisible, .inr low⟩,
      by simp⟩
  | plain _ visible => simp [visible]

theorem Spells.below (written : Spells c cs) {bound : Nat} (wide : 0x80 ≤ bound) (small : c.toNat < bound) :
    ∀ d ∈ cs, d.toNat < bound := by
  intro d member
  rcases (written.visible d member).2 with rfl | ascii
  · exact small
  · omega

/-! ### Reading a literal -/

/-- The character that the text of a literal begins with, and the text behind it. -/
def readChar : List Char → Option (Char × List Char)
  | '\\' :: 'n' :: rest => some ('\n', rest)
  | '\\' :: 'x' :: high :: low :: rest => some (Char.ofNat (16 * hexValue high + hexValue low), rest)
  | '\\' :: c :: rest => some (c, rest)
  | c :: rest => some (c, rest)
  | [] => none

theorem Spells.read (written : Spells c cs) (rest : List Char) : readChar (cs ++ rest) = some (c, rest) := by
  cases written with
  | marked special => rcases special with rfl | rfl <;> rfl
  | lineFeed => rfl
  | coded ascii =>
    show some (Char.ofNat (16 * hexValue (hexDigit _) + hexValue (hexDigit _)), rest) = _
    rw [hexValue_hexDigit _ (by omega), hexValue_hexDigit _ (by omega), Nat.div_add_mod, Char.ofNat_toNat]
  | plain unmarked =>
    have other : c ≠ '\\' := fun same => unmarked (.inl same)
    simp [readChar, other]

theorem flatMap_escapeChar_injective : Function.Injective (List.flatMap escapeChar) := by
  intro cs ds same
  induction cs generalizing ds with
  | nil =>
    cases ds with
    | nil => rfl
    | cons d ds =>
      have read := (escapeChar_spells d).read (ds.flatMap escapeChar)
      rw [← List.flatMap_cons, ← same] at read
      exact absurd read (by simp [readChar])
  | cons c cs ih =>
    have read := (escapeChar_spells c).read (cs.flatMap escapeChar)
    rw [← List.flatMap_cons, same] at read
    cases ds with
    | nil => exact absurd read (by simp [readChar])
    | cons d ds =>
      rw [List.flatMap_cons, (escapeChar_spells d).read] at read
      obtain ⟨rfl, rest⟩ := Prod.mk.inj (Option.some.inj read)
      rw [ih rest.symm]

theorem toList_escape (s : String) : (escape s).toList = s.toList.flatMap escapeChar :=
  String.toList_ofList

theorem escape_injective : Function.Injective escape := by
  intro s t same
  apply String.toList_inj.mp
  apply flatMap_escapeChar_injective
  rw [← toList_escape, ← toList_escape, same]

/-- The text behind the first double quote that no backslash escapes, if there is one. A backslash takes the
next character with it. -/
def afterQuote : List Char → Option (List Char)
  | [] => none
  | '"' :: rest => some rest
  | '\\' :: _ :: rest => afterQuote rest
  | _ :: rest => afterQuote rest

theorem afterQuote_plain (unmarked : ¬ (c = '\\' ∨ c = '"')) (rest : List Char) :
    afterQuote (c :: rest) = afterQuote rest := by
  obtain ⟨other, unquoted⟩ := not_or.mp unmarked
  rw [afterQuote]
  · exact fun same => unquoted same
  · exact fun d text same => absurd same other

theorem Spells.unquoted (written : Spells c cs) (rest : List Char) :
    afterQuote (cs ++ rest) = afterQuote rest := by
  cases written with
  | marked => rfl
  | lineFeed => rfl
  | coded ascii =>
    have digit : ∀ n < 16, ¬ (hexDigit n = '\\' ∨ hexDigit n = '"') := by decide
    show afterQuote (hexDigit _ :: hexDigit _ :: rest) = _
    rw [afterQuote_plain (digit _ (by omega)), afterQuote_plain (digit _ (by omega))]
  | plain unmarked => exact afterQuote_plain unmarked rest

theorem afterQuote_escape (s : String) (rest : List Char) :
    afterQuote ((escape s).toList ++ rest) = afterQuote rest := by
  rw [toList_escape]
  induction s.toList with
  | nil => rfl
  | cons c cs ih => rw [List.flatMap_cons, List.append_assoc, (escapeChar_spells c).unquoted, ih]

/-! ### Literals of bytes -/

/-- How bytes are written in a literal. -/
def escapeBytes (bytes : List UInt8) : List UInt8 :=
  toBytes (escape (ofBytes bytes))

theorem mem_escape {s : String} (member : d ∈ (escape s).toList) : ∃ c ∈ s.toList, d ∈ escapeChar c := by
  rw [toList_escape] at member
  exact List.mem_flatMap.mp member

theorem escape_below {s : String} {bound : Nat} (wide : 0x80 ≤ bound) (small : ∀ c ∈ s.toList, c.toNat < bound) :
    ∀ c ∈ (escape s).toList, c.toNat < bound := by
  intro d member
  obtain ⟨c, inside, written⟩ := mem_escape member
  exact (escapeChar_spells c).below wide (small c inside) d written

theorem ofBytes_escapeBytes (bytes : List UInt8) : ofBytes (escapeBytes bytes) = escape (ofBytes bytes) :=
  ofBytes_toBytes (escape_below (by decide) (ofBytes_below bytes))

theorem escapeBytes_injective : Function.Injective escapeBytes := by
  intro left right same
  apply ofBytes_injective
  apply escape_injective
  rw [← ofBytes_escapeBytes, ← ofBytes_escapeBytes, same]

theorem escapeBytes_visible {bytes : List UInt8} {b : UInt8} (member : b ∈ escapeBytes bytes) :
    0x20 ≤ b.toNat ∧ b.toNat ≠ 0x7F := by
  have inside : b.toChar ∈ (escape (ofBytes bytes)).toList := by
    rw [← ofBytes_escapeBytes, ofBytes, String.toList_ofList]
    exact List.mem_map_of_mem member
  obtain ⟨c, _, written⟩ := mem_escape inside
  exact isControl_eq_false.mp ((escapeChar_spells c).visible _ written).1

/-- A character outside ASCII stands for itself, and so does every byte of its encoding. -/
theorem escape_encodeChar (c : Char) :
    (((String.utf8EncodeChar c).map UInt8.toChar).flatMap escapeChar).map Char.toUInt8 =
      (escapeChar c).flatMap String.utf8EncodeChar := by
  by_cases ascii : c.toNat < 0x80
  · rw [encodeChar_ascii ascii, List.map_singleton, toChar_toUInt8 (by omega), List.flatMap_singleton,
      flatMap_encodeChar ((escapeChar_spells c).below (by decide) ascii)]
  · have wide : 0x80 ≤ c.toNat := by omega
    rw [escapeChar_of_le wide, List.flatMap_singleton, List.flatMap_map, List.map_flatMap]
    have kept : ∀ b ∈ String.utf8EncodeChar c, (escapeChar b.toChar).map Char.toUInt8 = [b] := by
      intro b member
      have wideByte : 0x80 ≤ b.toChar.toNat := le_of_mem_encodeChar wide member
      rw [escapeChar_of_le wideByte, List.map_singleton, toUInt8_toChar]
    rw [List.flatMap_congr kept, List.flatMap_singleton']

theorem escapeBytes_utf8 (s : String) : escapeBytes (utf8 s) = utf8 (escape s) := by
  unfold escapeBytes toBytes
  rw [utf8_eq, utf8_eq, toList_escape, toList_escape, ofBytes, String.toList_ofList]
  generalize s.toList = cs
  induction cs with
  | nil => rfl
  | cons c cs ih =>
    simp only [List.flatMap_cons, List.map_append, List.flatMap_append, escape_encodeChar, ih]

end GuardedIL.Text.Literal

namespace GuardedIL

open Text

/-! ### Numbers -/

theorem ascii_of_isDigit {c : Char} (digit : c.isDigit = true) : c.toNat < 0x80 := by
  obtain ⟨_, le⟩ := Char.isDigit_iff_toNat.mp digit
  exact lt_of_le_of_lt le (by decide)

theorem isDigit_of_mem_text {n : Nat} {c : Char} (member : c ∈ (toString n).toList) : c.isDigit = true := by
  rw [Nat.toString_eq_repr, Nat.toList_repr] at member
  exact Nat.isDigit_of_mem_toDigits (by decide) (by decide) member

theorem int_text (i : Int) :
    ∃ n : Nat, (toString i).toList = (toString n).toList ∨ (toString i).toList = '-' :: (toString n).toList := by
  cases i with
  | ofNat n => exact ⟨n, .inl rfl⟩
  | negSucc n => exact ⟨n + 1, .inr String.toList_append⟩

theorem mem_int_text {i : Int} {c : Char} (member : c ∈ (toString i).toList) : c = '-' ∨ c.isDigit = true := by
  obtain ⟨n, written | written⟩ := int_text i
  · exact .inr (isDigit_of_mem_text (written ▸ member))
  · exact (List.mem_cons.mp (written ▸ member)).imp id isDigit_of_mem_text

theorem int_text_ne_nil (i : Int) : (toString i).toList ≠ [] := by
  obtain ⟨n, written | written⟩ := int_text i
  · rw [written, Nat.toString_eq_repr, Nat.toList_repr]
    exact Nat.toDigits_ne_nil
  · rw [written]
    exact List.cons_ne_nil _ _

theorem ascii_of_numeric {c : Char} (numeric : c = '-' ∨ c.isDigit = true) : c.toNat < 0x80 := by
  rcases numeric with rfl | digit
  · decide
  · exact ascii_of_isDigit digit

/-! ### Forms of operands -/

namespace Operand

inductive Form where
  | temp | int | bool | str | global | null
  deriving DecidableEq

def form : Operand → Form
  | temp _ => .temp
  | int _ => .int
  | bool _ => .bool
  | str _ => .str
  | global _ => .global
  | null => .null

/-- The form of an operand by the first character of its text. -/
def Form.ofChar (c : Char) : Form :=
  if c = '%' then .temp
  else if c = '"' then .str
  else if c = '@' then .global
  else if c = 't' ∨ c = 'f' then .bool
  else if c = 'n' then .null
  else .int

theorem Form.ofChar_numeric {c : Char} (numeric : c = '-' ∨ c.isDigit = true) : Form.ofChar c = .int := by
  have other : ∀ d ∈ ['%', '"', '@', 't', 'f', 'n'], ¬ (d = '-' ∨ d.isDigit = true) := by simp
  have differs : ∀ d ∈ ['%', '"', '@', 't', 'f', 'n'], c ≠ d := by
    rintro d member rfl
    exact other c member numeric
  simp only [List.forall_mem_cons, List.not_mem_nil, IsEmpty.forall_iff, implies_true, and_true] at differs
  simp [Form.ofChar, differs]

theorem text_form (a : Operand) : a.text.toList.head?.map Form.ofChar = some a.form := by
  cases a with
  | temp id => simp [text, TempId.text, Form.ofChar, form]
  | int value =>
    obtain ⟨c, rest, shape⟩ := List.exists_cons_of_ne_nil (int_text_ne_nil value.toInt)
    have numeric := mem_int_text (shape ▸ List.mem_cons_self)
    show ((toString value.toInt).toList.head?).map Form.ofChar = _
    rw [shape]
    exact congrArg some (Form.ofChar_numeric numeric)
  | bool value => cases value <;> simp [text, Form.ofChar, form]
  | str value => simp [text, Literal.quote, Form.ofChar, form]
  | global name => simp [text, Form.ofChar, form]
  | null => simp [text, Form.ofChar, form]

theorem text_ascii {a : Operand} (plain : a.form ≠ .str ∧ a.form ≠ .global) :
    ∀ c ∈ a.text.toList, c.toNat < 0x80 := by
  intro c member
  cases a with
  | temp id =>
    have written : (text (temp id)).toList = '%' :: 't' :: (toString id.toNat).toList := String.toList_append
    rw [written, List.mem_cons, List.mem_cons] at member
    rcases member with rfl | rfl | digit
    · decide
    · decide
    · exact ascii_of_isDigit (isDigit_of_mem_text digit)
  | int value => exact ascii_of_numeric (mem_int_text member)
  | bool value =>
    have letters : ∀ d ∈ (text (bool value)).toList, d.toNat < 0x80 := by cases value <;> simp [text]
    exact letters c member
  | str value => exact absurd rfl plain.1
  | global name => exact absurd rfl plain.2
  | null =>
    have letters : ∀ d ∈ (text null).toList, d.toNat < 0x80 := by simp [text]
    exact letters c member

theorem text_injective : Function.Injective text := by
  intro a b same
  have sameForm : a.form = b.form := by
    apply Option.some.inj
    rw [← text_form, ← text_form, same]
  cases a with
  | temp id =>
    cases b with
    | temp id' =>
      have number : toString id.toNat = toString id'.toNat := (String.append_right_inj _).mp same
      rw [UInt32.toNat_inj.mp (Nat.repr_injective number)]
    | _ => exact absurd sameForm (by simp [form])
  | int value =>
    cases b with
    | int value' =>
      have number : toString value.toInt = toString value'.toInt := same
      rw [Int64.toInt_inj.mp (Int.repr_injective number)]
    | _ => exact absurd sameForm (by simp [form])
  | bool value =>
    cases b with
    | bool value' => cases value <;> cases value' <;> simp [text] at same ⊢
    | _ => exact absurd sameForm (by simp [form])
  | str value =>
    cases b with
    | str value' =>
      have inner : Literal.escape value = Literal.escape value' :=
        (String.append_right_inj _).mp ((String.append_left_inj _).mp same)
      rw [Literal.escape_injective inner]
    | _ => exact absurd sameForm (by simp [form])
  | global name =>
    cases b with
    | global name' => rw [(String.append_right_inj _).mp same]
    | _ => exact absurd sameForm (by simp [form])
  | null =>
    cases b with
    | null => rfl
    | _ => exact absurd sameForm (by simp [form])

end Operand

/-! ### Operands of bytes -/

/-- An operand whose strings are bytes, whether or not these encode a text. -/
inductive RawOperand where
  | temp (id : TempId)
  | int (value : Int64)
  | bool (value : Bool)
  | str (bytes : List UInt8)
  | global (name : List UInt8)
  | null
  deriving DecidableEq, Repr

/-- The operand with the bytes of its strings in UTF-8. -/
def Operand.raw : Operand → RawOperand
  | temp id => .temp id
  | int value => .int value
  | bool value => .bool value
  | str value => .str (utf8 value)
  | global name => .global (utf8 name)
  | null => .null

namespace RawOperand

/-- The operand whose strings have the bytes as their characters. -/
def read : RawOperand → Operand
  | temp id => .temp id
  | int value => .int value
  | bool value => .bool value
  | str bytes => .str (ofBytes bytes)
  | global name => .global (ofBytes name)
  | null => .null

/-- The bytes that are written for an operand. -/
def text (a : RawOperand) : List UInt8 :=
  toBytes a.read.text

theorem read_injective : Function.Injective read := by
  intro a b same
  cases a <;> cases b <;> simp_all [read, ofBytes_injective.eq_iff]

theorem text_below (a : RawOperand) : ∀ c ∈ a.read.text.toList, c.toNat < 256 := by
  have plain : a.read.form ≠ .str ∧ a.read.form ≠ .global → ∀ c ∈ a.read.text.toList, c.toNat < 256 :=
    fun plain c member => (Operand.text_ascii plain c member).trans (by decide)
  cases a with
  | str bytes =>
    have inner := Literal.escape_below (by decide) (ofBytes_below bytes)
    rw [read, Operand.text, Literal.quote, String.toList_append, String.toList_append, List.forall_mem_append,
      List.forall_mem_append]
    exact ⟨⟨by simp, inner⟩, by simp⟩
  | global name =>
    rw [read, Operand.text, String.toList_append, List.forall_mem_append]
    exact ⟨by simp, ofBytes_below name⟩
  | _ => exact plain (by simp [read, Operand.form])

theorem text_injective : Function.Injective text := by
  intro a b same
  apply read_injective
  apply Operand.text_injective
  rw [← ofBytes_toBytes a.text_below, ← ofBytes_toBytes b.text_below]
  exact congrArg ofBytes same

end RawOperand

theorem Operand.text_raw (a : Operand) : a.raw.text = utf8 a.text := by
  have plain : a.form ≠ .str ∧ a.form ≠ .global → toBytes a.text = utf8 a.text := fun plain =>
    (utf8_ascii (text_ascii plain)).symm
  cases a with
  | str value =>
    show toBytes (Literal.quote (ofBytes (utf8 value))) = utf8 (Literal.quote value)
    have inner : toBytes (Literal.escape (ofBytes (utf8 value))) = utf8 (Literal.escape value) :=
      Literal.escapeBytes_utf8 value
    have mark : toBytes "\"" = utf8 "\"" := by rfl
    unfold Literal.quote
    rw [toBytes_append, toBytes_append, utf8_append, utf8_append, inner, mark]
  | global name =>
    show toBytes ("@" ++ ofBytes (utf8 name)) = utf8 ("@" ++ name)
    have sign : toBytes "@" = utf8 "@" := by rfl
    rw [toBytes_append, utf8_append, toBytes_ofBytes, sign]
  | _ => exact plain (by simp [form])

/-- The text of an operand identifies it, also if its strings are bytes that encode no text; for strings that
are texts, the bytes written are those of the text. No two strings are written alike in a literal, which has
no control character and ends at its closing quote. -/
theorem text_identifies :
    (∀ a b : RawOperand, a.text = b.text ↔ a = b) ∧
    (∀ a b : Operand, a.text = b.text ↔ a = b) ∧
    (∀ a : Operand, a.raw.text = utf8 a.text) ∧
    Function.Injective Literal.escapeBytes ∧
    (∀ s, Literal.escapeBytes (utf8 s) = utf8 (Literal.escape s)) ∧
    ∀ bytes,
      (∀ b ∈ Literal.escapeBytes bytes, 0x20 ≤ b.toNat ∧ b.toNat ≠ 0x7F) ∧
      Literal.afterQuote (ofBytes (Literal.escapeBytes bytes)).toList = none ∧
      ∀ rest, Literal.afterQuote ((ofBytes (Literal.escapeBytes bytes)).toList ++ '"' :: rest) = some rest := by
  refine ⟨fun a b => RawOperand.text_injective.eq_iff, fun a b => Operand.text_injective.eq_iff,
    Operand.text_raw, Literal.escapeBytes_injective, Literal.escapeBytes_utf8, fun bytes => ⟨?_, ?_, ?_⟩⟩
  · exact fun b member => Literal.escapeBytes_visible member
  · rw [Literal.ofBytes_escapeBytes, ← List.append_nil (Literal.escape _).toList, Literal.afterQuote_escape]
    rfl
  · intro rest
    rw [Literal.ofBytes_escapeBytes, Literal.afterQuote_escape]
    rfl

end GuardedIL
