import Mathlib.Data.List.Forall2
import Mathlib.Data.List.TakeWhile
import Phrasebook.FileOptions.Reader
import Phrasebook.Json

/-!
# Writing file options as JSON

There are many ways to write the same options. Their entries may come in either order, an
option that is absent may be left out or be `null` (`Phrasebook.FileOptions.Gives`), every
character of a string may be escaped, some of them in several ways
(`Phrasebook.FileOptions.Spells`), and between any two tokens there may be blanks. What stays the
same is the list of tokens, so this file tells apart the **tokens** of an object
(`Phrasebook.FileOptions.ObjectTokens`) and how they are **laid out**
(`Phrasebook.FileOptions.Laid`), with whatever may stand before each.

The reader gives back the options from each of their spellings with blanks between the tokens
(`Phrasebook.FileOptions.ObjectTokens.readObject_eq`), whatever stands behind the object. Inside
a string everything rests on escapes, of which the numeric ones take one or two units of four
digits; a unit that is half of a character is never one itself, so the reader cannot take the
one for the other (`Phrasebook.FileOptions.Escape.escapeAfter_eq`). No options are out of reach
of the notation (`Phrasebook.FileOptions.exists_objectTokens`).
-/

namespace Phrasebook

namespace FileOptions

/-! ### The notation -/

/-- A hexadecimal digit, in lower or upper case. -/
def HexDigit (value : Nat) (digit : Char) : Prop :=
  digit = value.digitChar ∨ digit = value.digitChar.toUpper

/-- The four hexadecimal digits of a unit, each in a case of its own. -/
def HexUnit (n : Nat) (digits : List Char) : Prop :=
  List.Forall₂ HexDigit [n / 4096, n / 256 % 16, n / 16 % 16, n % 16] digits

/-- The first half of a character that is too large for one unit. -/
def highHalf (c : Char) : Nat :=
  0xD800 + (c.toNat - 0x10000) / 0x400

/-- The second half of a character that is too large for one unit. -/
def lowHalf (c : Char) : Nat :=
  0xDC00 + (c.toNat - 0x10000) % 0x400

/-- **How a character is written behind a backslash**: by a letter of its own, by its unit, or,
where one unit is too small for it, by its two halves. -/
inductive Escape : Char → List Char → Prop
  | quote : Escape '"' ['"']
  | backslash : Escape '\\' ['\\']
  | slash : Escape '/' ['/']
  | backspace : Escape '\x08' ['b']
  | formFeed : Escape '\x0c' ['f']
  | lineFeed : Escape '\n' ['n']
  | carriageReturn : Escape '\r' ['r']
  | tab : Escape '\t' ['t']
  | unit {c : Char} {digits : List Char} (hsmall : c.toNat < 0x10000)
    (hdigits : HexUnit c.toNat digits) : Escape c ('u' :: digits)
  | halves {c : Char} {high low : List Char} (hlarge : 0x10000 ≤ c.toNat)
    (hhigh : HexUnit (highHalf c) high) (hlow : HexUnit (lowHalf c) low) :
    Escape c ('u' :: (high ++ '\\' :: 'u' :: low))

/-- **How characters are written inside a string**: each as itself or escaped. A quote, a
backslash and the control characters must be escaped. -/
inductive Spells : List Char → List Char → Prop
  | nil : Spells [] []
  | plain {c : Char} {value text : List Char} (hcontrol : 0x20 ≤ c.toNat) (hquote : c ≠ '"')
    (hback : c ≠ '\\') (h : Spells value text) : Spells (c :: value) (c :: text)
  | escaped {c : Char} {value letters text : List Char} (hescape : Escape c letters)
    (h : Spells value text) : Spells (c :: value) ('\\' :: (letters ++ text))

/-- A string between quotes. -/
def Quoted (value : String) (token : List Char) : Prop :=
  ∃ text, Spells value.toList text ∧ token = '"' :: (text ++ ['"'])

/-- A value of an option. -/
inductive ValueToken : Option String → List Char → Prop
  | null : ValueToken none ['n', 'u', 'l', 'l']
  | string {value : String} {token : List Char} (h : Quoted value token) :
    ValueToken (some value) token

/-- The tokens of the entries of an object, of which there is at least one, and of the brace that
closes it. -/
inductive EntryTokens : List (String × Option String) → List (List Char) → Prop
  | last {key : String} {value : Option String} {k v : List Char} (hkey : Quoted key k)
    (hvalue : ValueToken value v) : EntryTokens [(key, value)] [k, [':'], v, ['}']]
  | more {key : String} {value : Option String} {k v : List Char}
    {entries : List (String × Option String)} {tokens : List (List Char)} (hkey : Quoted key k)
    (hvalue : ValueToken value v) (h : EntryTokens entries tokens) :
    EntryTokens ((key, value) :: entries) (k :: [':'] :: v :: [','] :: tokens)

/-- The tokens of an object behind its opening brace. -/
inductive ObjectTokens : List (String × Option String) → List (List Char) → Prop
  | empty : ObjectTokens [] [['}']]
  | entries {entries : List (String × Option String)} {tokens : List (List Char)}
    (h : EntryTokens entries tokens) : ObjectTokens entries tokens

/-- **Tokens laid out** one after the other, with a gap before each. -/
inductive Laid (gap : List Char → Prop) : List (List Char) → List Char → Prop
  | nil : Laid gap [] []
  | cons {g token text : List Char} {tokens : List (List Char)} (hgap : gap g)
    (h : Laid gap tokens text) : Laid gap (token :: tokens) (g ++ (token ++ text))

/-- A gap of certain blanks. -/
def Gap (blank : Char → Bool) (g : List Char) : Prop :=
  ∀ c ∈ g, blank c = true

theorem Gap.nil {blank : Char → Bool} : Gap blank [] :=
  fun _ h => nomatch h

theorem Gap.cons {blank : Char → Bool} {c : Char} {g : List Char} (hc : blank c = true)
    (h : Gap blank g) : Gap blank (c :: g) :=
  List.forall_mem_cons.mpr ⟨hc, h⟩

/-- **The options that entries give**: those that have a string for a value. No other entries
are looked at, and none comes twice. -/
structure Gives (entries : List (String × Option String)) (o : FileOptions) : Prop where
  known : ∀ e ∈ entries, e.1 = "project" ∨ e.1 = "author"
  once : (entries.map Prod.fst).Nodup
  project : ∀ value, o.project = some value ↔ ("project", some value) ∈ entries
  author : ∀ value, o.author = some value ↔ ("author", some value) ∈ entries

/-! ### Escapes -/

theorem hexDigit_cases : ∀ value < 16,
    (hexValue? value.digitChar = some value ∧ 0x20 ≤ value.digitChar.toNat) ∧
      hexValue? value.digitChar.toUpper = some value ∧ 0x20 ≤ value.digitChar.toUpper.toNat := by
  decide

theorem HexDigit.hexValue?_eq {value : Nat} {digit : Char} (h : HexDigit value digit)
    (hvalue : value < 16) : hexValue? digit = some value := by
  rcases h with rfl | rfl
  · exact (hexDigit_cases value hvalue).1.1
  · exact (hexDigit_cases value hvalue).2.1

theorem HexDigit.le_toNat {value : Nat} {digit : Char} (h : HexDigit value digit)
    (hvalue : value < 16) : 0x20 ≤ digit.toNat := by
  rcases h with rfl | rfl
  · exact (hexDigit_cases value hvalue).1.2
  · exact (hexDigit_cases value hvalue).2.2

namespace HexUnit

variable {n : Nat} {digits : List Char}

/-- A unit is written with four digits. -/
theorem exists_digits (h : HexUnit n digits) : ∃ a b c d,
    digits = [a, b, c, d] ∧ HexDigit (n / 4096) a ∧ HexDigit (n / 256 % 16) b ∧
      HexDigit (n / 16 % 16) c ∧ HexDigit (n % 16) d := by
  rcases h with _ | ⟨ha, _ | ⟨hb, _ | ⟨hc, _ | ⟨hd, _ | _⟩⟩⟩⟩
  exact ⟨_, _, _, _, rfl, ha, hb, hc, hd⟩

/-- The digits of a unit read back as the unit. -/
theorem hexFour_eq (h : HexUnit n digits) (hn : n < 0x10000) (rest : List Char) :
    hexFour (digits ++ rest) = .ok n := by
  obtain ⟨a, b, c, d, rfl, ha, hb, hc, hd⟩ := h.exists_digits
  have hread : [a, b, c, d].mapM hexValue? =
      some [n / 4096, n / 256 % 16, n / 16 % 16, n % 16] := by
    simp [ha.hexValue?_eq (by omega), hb.hexValue?_eq (Nat.mod_lt _ (by decide)),
      hc.hexValue?_eq (Nat.mod_lt _ (by decide)), hd.hexValue?_eq (Nat.mod_lt _ (by decide))]
  have htake : ([a, b, c, d] ++ rest).take 4 = [a, b, c, d] := rfl
  have hvalue : ((n / 4096 * 16 + n / 256 % 16) * 16 + n / 16 % 16) * 16 + n % 16 = n := by omega
  rw [hexFour, htake, hread]
  exact congrArg _ hvalue

theorem le_toNat (h : HexUnit n digits) (hn : n < 0x10000) : ∀ c ∈ digits, 0x20 ≤ c.toNat := by
  obtain ⟨a, b, c, d, rfl, ha, hb, hc, hd⟩ := h.exists_digits
  have hdigit : ∀ m, m % 16 < 16 := fun m => Nat.mod_lt m (by decide)
  simp only [List.forall_mem_cons]
  exact ⟨ha.le_toNat (by omega), hb.le_toNat (hdigit _), hc.le_toNat (hdigit _),
    hd.le_toNat (hdigit _), fun _ h => nomatch h⟩

end HexUnit

/-- Reading goes on behind what has been read. -/
theorem ok_bind {α β : Type} (a : α) (f : α → Except DocblockError β) :
    (Except.ok a >>= f) = f a := rfl

/-- No character has a number between the planes that halves are taken from. -/
theorem toNat_cases (c : Char) : c.toNat < 0xD800 ∨ 0xDFFF < c.toNat ∧ c.toNat < 0x110000 :=
  c.valid

/-- A character is no half of one. -/
theorem toNat_notHalf (c : Char) : isLowHalf c.toNat = false ∧ isHighHalf c.toNat = false := by
  have hnumber := toNat_cases c
  simp only [isLowHalf, isHighHalf, Bool.and_eq_false_iff, decide_eq_false_iff_not]
  omega

theorem highHalf_lt (c : Char) : highHalf c < 0xDC00 := by
  have hnumber := toNat_cases c
  rw [highHalf]
  omega

theorem lowHalf_lt (c : Char) : lowHalf c < 0xE000 := by
  rw [lowHalf]
  omega

theorem isHighHalf_highHalf (c : Char) : isHighHalf (highHalf c) = true := by
  rw [isHighHalf, Bool.and_eq_true]
  exact ⟨decide_eq_true (Nat.le_add_right _ _),
    decide_eq_true (Nat.le_of_lt_succ (highHalf_lt c))⟩

theorem isLowHalf_highHalf (c : Char) : isLowHalf (highHalf c) = false := by
  have hlt := highHalf_lt c
  simp only [isLowHalf, Bool.and_eq_false_iff, decide_eq_false_iff_not]
  omega

theorem isLowHalf_lowHalf (c : Char) : isLowHalf (lowHalf c) = true := by
  rw [isLowHalf, Bool.and_eq_true]
  exact ⟨decide_eq_true (Nat.le_add_right _ _),
    decide_eq_true (Nat.le_of_lt_succ (lowHalf_lt c))⟩

/-- A character is put together again from its halves. -/
theorem toNat_halves {c : Char} (hlarge : 0x10000 ≤ c.toNat) :
    (highHalf c - 0xD800) * 0x400 + (lowHalf c - 0xDC00) + 0x10000 = c.toNat := by
  rw [highHalf, lowHalf]
  omega

/-- A unit of its own is the character of that number. -/
theorem numericEscape_unit {c : Char} {digits : List Char} (hsmall : c.toNat < 0x10000)
    (h : HexUnit c.toNat digits) (rest : List Char) :
    numericEscape (digits ++ rest) = .ok (c, 4) := by
  obtain ⟨hlow, hhigh⟩ := toNat_notHalf c
  rw [numericEscape, h.hexFour_eq hsmall, ok_bind, hlow, if_neg Bool.false_ne_true, hhigh,
    if_neg Bool.false_ne_true, Char.ofNat_toNat]

/-- Two halves are the character they are halves of. -/
theorem numericEscape_halves {c : Char} {high low : List Char} (hlarge : 0x10000 ≤ c.toNat)
    (hhigh : HexUnit (highHalf c) high) (hlow : HexUnit (lowHalf c) low) (rest : List Char) :
    numericEscape (high ++ '\\' :: 'u' :: (low ++ rest)) = .ok (c, 10) := by
  have hfirst := hhigh.hexFour_eq ((highHalf_lt c).trans (by decide))
    ('\\' :: 'u' :: (low ++ rest))
  have hsecond := hlow.hexFour_eq ((lowHalf_lt c).trans (by decide)) rest
  have hbehind : expect ['\\', 'u'] ((high ++ '\\' :: 'u' :: (low ++ rest)).drop 4) =
      .ok (low ++ rest) := by
    obtain ⟨_, _, _, _, rfl, -⟩ := hhigh.exists_digits
    rfl
  rw [numericEscape, hfirst, ok_bind, isLowHalf_highHalf, if_neg Bool.false_ne_true,
    if_pos (isHighHalf_highHalf c), hbehind, ok_bind, hsecond, ok_bind,
    if_pos (isLowHalf_lowHalf c), toNat_halves hlarge, Char.ofNat_toNat]

/-- **An escape reads back as its character**, and is as long as it is written. -/
theorem Escape.escapeAfter_eq {c : Char} {letters : List Char} (h : Escape c letters)
    (rest : List Char) : escapeAfter (letters ++ rest) = .ok (c, letters.length) := by
  cases h with
  | unit hsmall hdigits =>
    obtain ⟨_, _, _, _, rfl, -⟩ := hdigits.exists_digits
    rw [List.cons_append, escapeAfter, numericEscape_unit hsmall hdigits]
    rfl
  | halves hlarge hhigh hlow =>
    have hread := numericEscape_halves hlarge hhigh hlow rest
    obtain ⟨_, _, _, _, rfl, -⟩ := hhigh.exists_digits
    obtain ⟨_, _, _, _, rfl, -⟩ := hlow.exists_digits
    simp only [List.cons_append, List.nil_append] at hread ⊢
    rw [escapeAfter, hread]
    rfl
  | _ => rfl

/-- No control character is part of an escape. -/
theorem Escape.le_toNat {c : Char} {letters : List Char} (h : Escape c letters) :
    ∀ d ∈ letters, 0x20 ≤ d.toNat := by
  cases h with
  | unit hsmall hdigits => exact List.forall_mem_cons.mpr ⟨by decide, hdigits.le_toNat hsmall⟩
  | halves hlarge hhigh hlow =>
    have hfirst := hhigh.le_toNat ((highHalf_lt c).trans (by decide))
    have hsecond := hlow.le_toNat ((lowHalf_lt c).trans (by decide))
    simp only [List.forall_mem_cons, List.forall_mem_append]
    exact ⟨by decide, hfirst, by decide, by decide, hsecond⟩
  | _ => exact List.forall_mem_singleton.mpr (by decide)

/-! ### Strings -/

/-- What belongs to an escape already read is passed over. -/
theorem stringFrom_length (escape : List Char → Except DocblockError (Char × Nat))
    (letters rest : List Char) :
    stringFrom escape letters.length (letters ++ rest) = stringFrom escape 0 rest := by
  induction letters with
  | nil => rfl
  | cons c letters ih => exact ih

/-- **A string reads back as its value**, whatever follows its closing quote. -/
theorem Spells.stringFrom_eq {value text : List Char} (h : Spells value text) (rest : List Char) :
    stringFrom escapeAfter 0 (text ++ '"' :: rest) = .ok (value, rest) := by
  induction h with
  | nil => rfl
  | @plain c value text hcontrol hquote hback h ih =>
    rw [List.cons_append, stringFrom, if_neg hquote, if_neg hback, if_neg (by omega), ih]
    rfl
  | @escaped c value letters text hescape h ih =>
    rw [List.cons_append, List.append_assoc, stringFrom, if_neg (by decide), if_pos rfl,
      hescape.escapeAfter_eq, ok_bind]
    dsimp only
    rw [stringFrom_length, ih]
    rfl

theorem Spells.le_toNat {value text : List Char} (h : Spells value text) :
    ∀ c ∈ text, 0x20 ≤ c.toNat := by
  induction h with
  | nil => exact fun _ h => nomatch h
  | plain hcontrol hquote hback h ih => exact List.forall_mem_cons.mpr ⟨hcontrol, ih⟩
  | escaped hescape h ih =>
    exact List.forall_mem_cons.mpr
      ⟨by decide, List.forall_mem_append.mpr ⟨hescape.le_toNat, ih⟩⟩

theorem Spells.readString_eq {value : String} {text : List Char} (h : Spells value.toList text)
    (rest : List Char) : readString (text ++ '"' :: rest) = .ok (value, rest) := by
  rw [readString, h.stringFrom_eq]
  exact congrArg (fun s => Except.ok (s, rest)) String.ofList_toList

/-! ### Entries -/

theorem skipBlank_gap {g : List Char} (hg : Gap isJsonBlank g) (cs : List Char) :
    skipBlank (g ++ cs) = skipBlank cs :=
  List.dropWhile_append_of_pos hg

theorem expectMark_gap {g : List Char} (hg : Gap isJsonBlank g) (mark : Char)
    (hmark : isJsonBlank mark = false) (cs : List Char) :
    expectMark mark (g ++ mark :: cs) = .ok cs := by
  rw [expectMark, skipBlank_gap hg, skipBlank, List.dropWhile_cons_of_neg (by simp [hmark]), expect,
    if_pos rfl, expect]

/-- The value of an option reads back. -/
theorem ValueToken.readField_eq {value : Option String} {token : List Char}
    (h : ValueToken value token) {g : List Char} (hg : Gap isJsonBlank g) (rest : List Char) :
    readField (g ++ (token ++ rest)) = .ok (value, rest) := by
  rw [readField, skipBlank_gap hg]
  cases h with
  | null => rfl
  | string h =>
    obtain ⟨text, htext, rfl⟩ := h
    have hskip : skipBlank ('"' :: (text ++ ['"']) ++ rest) = '"' :: (text ++ '"' :: rest) := by
      simp [skipBlank, isJsonBlank]
    rw [hskip]
    change (readString (text ++ '"' :: rest) >>= fun r => pure (some r.1, r.2)) = _
    rw [htext.readString_eq]
    rfl

/-- The fields with one entry more. -/
def Fields.with (fields : Fields) (entry : String × Option String) : Fields :=
  if entry.1 = "project" then { fields with project := some entry.2 }
  else { fields with author := some entry.2 }

/-- Whether a known field has no value yet. -/
def Fields.Lacks (fields : Fields) (key : String) : Prop :=
  key = "project" ∧ fields.project = none ∨ key = "author" ∧ fields.author = none

/-- A field stays without a value while others get theirs. -/
theorem Fields.Lacks.with {fields : Fields} {key : String} {entry : String × Option String}
    (h : fields.Lacks key) (hentry : fields.Lacks entry.1) (hne : entry.1 ≠ key) :
    (fields.with entry).Lacks key := by
  rcases h with ⟨rfl, hnone⟩ | ⟨rfl, hnone⟩
  · rw [Fields.with, if_neg hne]
    exact Or.inl ⟨rfl, hnone⟩
  · rcases hentry with ⟨hproject, -⟩ | ⟨hauthor, -⟩
    · rw [Fields.with, if_pos hproject]
      exact Or.inr ⟨rfl, hnone⟩
    · exact absurd hauthor hne

/-- An entry that is the first for a known field is added to the fields. -/
theorem readEntry_eq {fields : Fields} {key : String} {value : Option String} {g g' v : List Char}
    (hlacks : fields.Lacks key) (hg : Gap isJsonBlank g) (hg' : Gap isJsonBlank g')
    (hvalue : ValueToken value v) (rest : List Char) :
    readEntry fields key (g ++ ':' :: (g' ++ (v ++ rest))) =
      .ok (fields.with (key, value), rest) := by
  have hcolon := expectMark_gap hg ':' (by decide) (g' ++ (v ++ rest))
  have hread := hvalue.readField_eq hg' rest
  rcases hlacks with ⟨rfl, hnone⟩ | ⟨rfl, hnone⟩
  · rw [readEntry, if_pos rfl, hnone, hcolon, ok_bind, hread]
    rfl
  · rw [readEntry, if_neg (by decide), if_pos rfl, hnone, hcolon, ok_bind, hread]
    rfl

/-- One step of reading entries: behind an entry stands a comma or a closing brace. -/
theorem readEntries_succ {fields : Fields} {key : String} {value : Option String}
    {g₁ g₂ g₃ k v : List Char} (hlacks : fields.Lacks key) (hkey : Quoted key k)
    (hvalue : ValueToken value v) (hg₁ : Gap isJsonBlank g₁) (hg₂ : Gap isJsonBlank g₂)
    (hg₃ : Gap isJsonBlank g₃) (fuel : Nat) (rest : List Char) :
    readEntries (fuel + 1) fields (g₁ ++ (k ++ (g₂ ++ ([':'] ++ (g₃ ++ (v ++ rest)))))) =
      match skipBlank rest with
      | ',' :: cs => readEntries fuel (fields.with (key, value)) cs
      | cs => do
        let _ ← expect ['}'] cs
        return (fields.with (key, value)).options := by
  obtain ⟨spelling, hspelling, rfl⟩ := hkey
  simp only [List.append_assoc, List.cons_append, List.nil_append]
  rw [readEntries, expectMark_gap hg₁ '"' (by decide), ok_bind, hspelling.readString_eq, ok_bind]
  dsimp only
  rw [readEntry_eq hlacks hg₂ hg₃ hvalue rest]
  rfl

/-- **The entries of an object are added to the fields** one after the other. -/
theorem EntryTokens.readEntries_eq {entries : List (String × Option String)}
    {tokens : List (List Char)} (h : EntryTokens entries tokens) : ∀ {text : List Char},
    Laid (Gap isJsonBlank) tokens text → ∀ {fields : Fields} {fuel : Nat},
      (entries.map Prod.fst).Nodup → (∀ e ∈ entries, fields.Lacks e.1) →
      entries.length ≤ fuel → ∀ rest,
        readEntries fuel fields (text ++ rest) = .ok (entries.foldl Fields.with fields).options := by
  induction h with
  | last hkey hvalue =>
    intro text hlaid fields fuel honce hlacks hfuel rest
    rcases fuel with _ | fuel
    · exact absurd hfuel (Nat.not_succ_le_zero _)
    rcases hlaid with _ | ⟨hg₁, _ | ⟨hg₂, _ | ⟨hg₃, _ | ⟨hg₄, _ | _⟩⟩⟩⟩
    simp only [List.append_assoc, List.append_nil]
    rw [readEntries_succ (hlacks _ List.mem_cons_self) hkey hvalue hg₁ hg₂ hg₃, skipBlank_gap hg₄]
    rfl
  | more hkey hvalue h ih =>
    intro text hlaid fields fuel honce hlacks hfuel rest
    rcases fuel with _ | fuel
    · exact absurd hfuel (Nat.not_succ_le_zero _)
    rcases hlaid with _ | ⟨hg₁, _ | ⟨hg₂, _ | ⟨hg₃, _ | ⟨hg₄, hlaid⟩⟩⟩⟩
    obtain ⟨hfirst, hlacks⟩ := List.forall_mem_cons.mp hlacks
    obtain ⟨hnew, honce⟩ := List.nodup_cons.mp honce
    simp only [List.append_assoc]
    rw [readEntries_succ hfirst hkey hvalue hg₁ hg₂ hg₃, skipBlank_gap hg₄]
    refine ih hlaid honce (fun e he => (hlacks e he).with hfirst ?_) (Nat.le_of_succ_le_succ hfuel)
      rest
    exact fun heq => hnew (heq ▸ List.mem_map_of_mem he)

/-- An entry is no shorter than its colon. -/
theorem EntryTokens.length_le {entries : List (String × Option String)}
    {tokens : List (List Char)} (h : EntryTokens entries tokens) {gap : List Char → Prop} :
    ∀ {text : List Char}, Laid gap tokens text → entries.length ≤ text.length := by
  induction h with
  | last hkey hvalue =>
    intro text hlaid
    rcases hlaid with _ | ⟨-, _ | ⟨-, _⟩⟩
    simp only [List.length_append, List.length_singleton]
    omega
  | more hkey hvalue h ih =>
    intro text hlaid
    rcases hlaid with _ | ⟨-, _ | ⟨-, _ | ⟨-, _ | ⟨-, hlaid⟩⟩⟩⟩
    have hrest := ih hlaid
    simp only [List.length_append, List.length_cons]
    omega

/-! ### Options -/

/-- A new entry gives its own option a value and no other. -/
theorem Fields.options_with {fields : Fields} {entry : String × Option String}
    (h : fields.Lacks entry.1) (value : String) :
    ((fields.with entry).options.project = some value ↔
        fields.options.project = some value ∨ ("project", some value) = entry) ∧
      ((fields.with entry).options.author = some value ↔
        fields.options.author = some value ∨ ("author", some value) = entry) := by
  obtain ⟨key, v⟩ := entry
  rcases h with ⟨hkey, hnone⟩ | ⟨hkey, hnone⟩ <;> dsimp only at hkey <;> subst hkey <;>
    simp [Fields.with, Fields.options, hnone, eq_comm]

/-- What is read from entries is what the fields gave before and what the entries give. -/
theorem options_foldl_with (entries : List (String × Option String)) : ∀ {fields : Fields},
    (entries.map Prod.fst).Nodup → (∀ e ∈ entries, fields.Lacks e.1) → ∀ value : String,
      ((entries.foldl Fields.with fields).options.project = some value ↔
          fields.options.project = some value ∨ ("project", some value) ∈ entries) ∧
        ((entries.foldl Fields.with fields).options.author = some value ↔
          fields.options.author = some value ∨ ("author", some value) ∈ entries) := by
  induction entries with
  | nil => simp
  | cons entry entries ih =>
    intro fields honce hlacks value
    obtain ⟨hfirst, hlacks⟩ := List.forall_mem_cons.mp hlacks
    obtain ⟨hnew, honce⟩ := List.nodup_cons.mp honce
    have hrest : ∀ e ∈ entries, (fields.with entry).Lacks e.1 := fun e he =>
      (hlacks e he).with hfirst fun heq => hnew (heq ▸ List.mem_map_of_mem he)
    obtain ⟨hproject, hauthor⟩ := Fields.options_with hfirst value
    obtain ⟨ihproject, ihauthor⟩ := ih honce hrest value
    rw [List.foldl_cons, ihproject, ihauthor, hproject, hauthor, or_assoc, or_assoc,
      List.mem_cons, List.mem_cons]
    exact ⟨Iff.rfl, Iff.rfl⟩

/-- No field has a value at first. -/
theorem Gives.lacks {entries : List (String × Option String)} {o : FileOptions}
    (h : Gives entries o) : ∀ e ∈ entries, Fields.Lacks {} e.1 :=
  fun e he => (h.known e he).imp (⟨·, rfl⟩) (⟨·, rfl⟩)

/-- **What is read from entries is what they give.** -/
theorem Gives.options_eq {entries : List (String × Option String)} {o : FileOptions}
    (h : Gives entries o) : (entries.foldl Fields.with {}).options = o := by
  have hread := options_foldl_with entries h.once h.lacks
  have hproject : (entries.foldl Fields.with {}).options.project = o.project := by
    ext value
    rw [(hread value).1, h.project value]
    exact or_iff_right nofun
  have hauthor : (entries.foldl Fields.with {}).options.author = o.author := by
    ext value
    rw [(hread value).2, h.author value]
    exact or_iff_right nofun
  exact congrArg₂ FileOptions.mk hproject hauthor

/-- The first entry begins with a quote, and the gap before it may as well be none. -/
theorem EntryTokens.exists_quote {entries : List (String × Option String)}
    {tokens : List (List Char)} {text : List Char} (h : EntryTokens entries tokens)
    (hlaid : Laid (Gap isJsonBlank) tokens text) : ∃ text',
      Laid (Gap isJsonBlank) tokens ('"' :: text') ∧
        ∀ rest, skipBlank (text ++ rest) = '"' :: (text' ++ rest) := by
  cases h with
  | last hkey hvalue | more hkey hvalue h =>
    obtain ⟨spelling, -, rfl⟩ := hkey
    rcases hlaid with _ | ⟨hg, hlaid⟩
    refine ⟨_, .cons .nil hlaid, fun rest => ?_⟩
    rw [List.append_assoc, skipBlank_gap hg]
    rfl

/-- **An object reads back as the options it gives**, behind its opening brace, with blanks
before each of its tokens and whatever behind it. -/
theorem ObjectTokens.readObject_eq {entries : List (String × Option String)}
    {tokens : List (List Char)} {o : FileOptions} {text : List Char}
    (h : ObjectTokens entries tokens) (hgives : Gives entries o)
    (hlaid : Laid (Gap isJsonBlank) tokens text) (rest : List Char) :
    readObject (text ++ rest) = .ok o := by
  have hoptions := hgives.options_eq
  cases h with
  | empty =>
    rcases hlaid with _ | ⟨hg, _ | _⟩
    rw [readObject, List.append_assoc, skipBlank_gap hg]
    exact congrArg _ hoptions
  | entries h =>
    obtain ⟨text', hlaid, hskip⟩ := h.exists_quote hlaid
    have hfuel : entries.length ≤ ('"' :: (text' ++ rest)).length + 1 := by
      have hlength := h.length_le hlaid
      simp only [List.length_cons, List.length_append] at hlength ⊢
      omega
    have hread := h.readEntries_eq hlaid hgives.once hgives.lacks hfuel rest
    rw [readObject, hskip]
    exact hread.trans (congrArg _ hoptions)

/-! ### The compact spelling -/

/-- The digits of compact JSON are the lower case ones. -/
theorem hexUnit_hexFour {n : Nat} (hn : n < 0x10000) : HexUnit n (Json.hexFour n) := by
  have hfirst : n / 4096 % 16 = n / 4096 := Nat.mod_eq_of_lt (by omega)
  rw [HexUnit, Json.hexFour, hfirst]
  exact .cons (.inl rfl) (.cons (.inl rfl) (.cons (.inl rfl) (.cons (.inl rfl) .nil)))

/-- A string of compact JSON is a string. -/
theorem spells_flatMap_escape (value : List Char) : Spells value (value.flatMap Json.escape) := by
  induction value with
  | nil => exact .nil
  | cons c value ih =>
    rw [List.flatMap_cons, Json.escape.eq_def]
    split
    case h_8 hquote hback _ _ _ _ _ =>
      split
      · exact .escaped (.unit (by omega) (hexUnit_hexFour (by omega))) ih
      · exact .plain (Nat.le_of_not_lt ‹_›) hquote hback ih
    · exact .escaped .quote ih
    · exact .escaped .backslash ih
    · exact .escaped .backspace ih
    · exact .escaped .tab ih
    · exact .escaped .lineFeed ih
    · exact .escaped .formFeed ih
    · exact .escaped .carriageReturn ih

theorem exists_valueToken (value : Option String) : ∃ token, ValueToken value token := by
  cases value with
  | none => exact ⟨_, .null⟩
  | some value => exact ⟨_, .string ⟨_, spells_flatMap_escape _, rfl⟩⟩

/-- **All options can be written**, whatever is in their strings. -/
theorem exists_objectTokens (o : FileOptions) :
    ∃ entries tokens, Gives entries o ∧ ObjectTokens entries tokens := by
  obtain ⟨v, hv⟩ := exists_valueToken o.project
  obtain ⟨w, hw⟩ := exists_valueToken o.author
  have hkey : ∀ key, Quoted key (Json.quoted key) := fun key => ⟨_, spells_flatMap_escape _, rfl⟩
  refine ⟨[("project", o.project), ("author", o.author)], _, ?_,
    .entries (.more (hkey _) hv (.last (hkey _) hw))⟩
  exact
    { known := by simp
      once := by simp
      project := by simp [eq_comm]
      author := by simp [eq_comm] }

end FileOptions

end Phrasebook
