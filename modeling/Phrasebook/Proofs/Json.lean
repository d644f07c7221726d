import Mathlib.Data.List.TakeWhile
import Phrasebook.Json

/-!
# Compact JSON can be read in one way only

A value is written without blanks and without any mark of where it is over, except what its
own last character says. That is enough: the first character of a spelling tells the kind of
the value (`Phrasebook.Json.mark`), a string is over at the first quote that no backslash
protects, an array and an object at the bracket that closes them, and a number where no digit
follows. So of a text that begins with a value, the value and what stands behind it are
determined (`Phrasebook.Json.chars_append_inj`), as long as what stands behind a number does
not begin with a digit; inside a value it never does.

What has to be looked at with care are strings. They may hold any characters, those included
that arrays and objects are written with, and what keeps them apart is that the escapes are a
prefix code (`Phrasebook.Json.escape_append_inj`): no escape is the beginning of another, and
none begins with a quote.
-/

namespace Phrasebook

namespace Json

/-! ### Strings -/

/-- The character that a backslash and a letter stand for, if they are an escape of their
own. The letter `u` is none: it opens a code point. -/
def shortEscape? : Char → Option Char
  | '"' => some '"'
  | '\\' => some '\\'
  | 'b' => some '\x08'
  | 't' => some '\t'
  | 'n' => some '\n'
  | 'f' => some '\x0c'
  | 'r' => some '\r'
  | _ => none

/-- **How a character is written in a string**: as itself, by a letter behind a backslash, or
by its code point. -/
theorem escape_cases (c : Char) :
    (escape c = [c] ∧ c ≠ '"' ∧ c ≠ '\\') ∨
      (∃ letter, escape c = ['\\', letter] ∧ shortEscape? letter = some c) ∨
      (escape c = '\\' :: 'u' :: hexFour c.toNat ∧ c.toNat < 0x20) := by
  rw [escape.eq_def]
  split
  case h_8 hquote hback _ _ _ _ _ =>
    split
    · exact Or.inr (Or.inr ⟨rfl, ‹_›⟩)
    · exact Or.inl ⟨rfl, hquote, hback⟩
  all_goals exact Or.inr (Or.inl ⟨_, rfl, rfl⟩)

/-- The code points of control characters are told apart by their digits. -/
theorem hexFour_inj : ∀ m < 0x20, ∀ n < 0x20, hexFour m = hexFour n → m = n := by
  decide +kernel

/-- **The escapes are a prefix code**: the first character of a string is determined by any
text that begins with its escape. -/
theorem escape_append_inj {c d : Char} {xs ys : List Char}
    (h : escape c ++ xs = escape d ++ ys) : c = d ∧ xs = ys := by
  rcases escape_cases c with ⟨hc, -, hcb⟩ | ⟨e, hc, hce⟩ | ⟨hc, hcn⟩ <;>
    rcases escape_cases d with ⟨hd, -, hdb⟩ | ⟨f, hd, hdf⟩ | ⟨hd, hdn⟩ <;>
    rw [hc, hd] at h
  · exact List.cons.inj h
  · exact absurd (List.cons.inj h).1 hcb
  · exact absurd (List.cons.inj h).1 hcb
  · exact absurd (List.cons.inj h).1.symm hdb
  · -- the letters are the same, and so is what they stand for
    obtain ⟨rfl, hrest⟩ := List.cons.inj (List.cons.inj h).2
    exact ⟨Option.some.inj (hce.symm.trans hdf), hrest⟩
  · obtain ⟨rfl, -⟩ := List.cons.inj (List.cons.inj h).2
    exact nomatch hce
  · exact absurd (List.cons.inj h).1.symm hdb
  · obtain ⟨rfl, -⟩ := List.cons.inj (List.cons.inj h).2
    exact nomatch hdf
  · have hdigits : hexFour c.toNat ++ xs = hexFour d.toNat ++ ys :=
      (List.cons.inj (List.cons.inj h).2).2
    obtain ⟨hcode, hrest⟩ := List.append_inj hdigits rfl
    exact ⟨Char.toNat_inj.mp (hexFour_inj _ hcn _ hdn hcode), hrest⟩

/-- No escape begins with a quote. -/
theorem escape_append_ne_quote (c : Char) (xs ys : List Char) : escape c ++ xs ≠ '"' :: ys := by
  intro h
  rcases escape_cases c with ⟨hc, hquote, -⟩ | ⟨e, hc, -⟩ | ⟨hc, -⟩ <;> rw [hc] at h
  · exact hquote (List.cons.inj h).1
  · exact absurd (List.cons.inj h).1 (by decide)
  · exact absurd (List.cons.inj h).1 (by decide)

theorem flatMap_escape_append_inj {cs ds xs ys : List Char}
    (h : cs.flatMap escape ++ '"' :: xs = ds.flatMap escape ++ '"' :: ys) :
    cs = ds ∧ xs = ys := by
  induction cs generalizing ds with
  | nil =>
    cases ds with
    | nil => exact ⟨rfl, (List.cons.inj h).2⟩
    | cons d ds =>
      rw [List.flatMap_cons, List.append_assoc] at h
      exact absurd h.symm (escape_append_ne_quote d _ _)
  | cons c cs ih =>
    cases ds with
    | nil =>
      rw [List.flatMap_cons, List.append_assoc] at h
      exact absurd h (escape_append_ne_quote c _ _)
    | cons d ds =>
      rw [List.flatMap_cons, List.flatMap_cons, List.append_assoc, List.append_assoc] at h
      obtain ⟨rfl, hrest⟩ := escape_append_inj h
      obtain ⟨rfl, hxs⟩ := ih hrest
      exact ⟨rfl, hxs⟩

/-- **A quoted string is over at its last quote.** -/
theorem quoted_append_inj {s t : String} {xs ys : List Char}
    (h : quoted s ++ xs = quoted t ++ ys) : s = t ∧ xs = ys := by
  simp only [quoted, List.cons_append, List.append_assoc, List.nil_append] at h
  obtain ⟨hchars, hrest⟩ := flatMap_escape_append_inj (List.cons.inj h).2
  exact ⟨String.toList_inj.mp hchars, hrest⟩

/-! ### Numbers -/

theorem toDigits_inj {m n : Nat} (h : Nat.toDigits 10 m = Nat.toDigits 10 n) : m = n := by
  rw [← Nat.ofDigitChars_toDigits (b := 10) (n := m) (by decide) (by decide), h,
    Nat.ofDigitChars_toDigits (by decide) (by decide)]

theorem takeWhile_toDigits_append (n : Nat) {rest : List Char}
    (h : rest.takeWhile Char.isDigit = []) :
    (Nat.toDigits 10 n ++ rest).takeWhile Char.isDigit = Nat.toDigits 10 n := by
  rw [List.takeWhile_append_of_pos fun _ hc =>
    Nat.isDigit_of_mem_toDigits (by decide) (by decide) hc, h, List.append_nil]

/-- **A number is over where no digit follows.** -/
theorem toDigits_append_inj {m n : Nat} {xs ys : List Char}
    (hxs : xs.takeWhile Char.isDigit = []) (hys : ys.takeWhile Char.isDigit = [])
    (h : Nat.toDigits 10 m ++ xs = Nat.toDigits 10 n ++ ys) : m = n ∧ xs = ys := by
  have hdigits := congrArg (List.takeWhile Char.isDigit) h
  rw [takeWhile_toDigits_append m hxs, takeWhile_toDigits_append n hys] at hdigits
  rw [hdigits] at h
  exact ⟨toDigits_inj hdigits, List.append_cancel_left h⟩

/-! ### The kind of a value -/

/-- **What tells the kind of a value**: the character that its spelling begins with, where a
zero stands for any digit. -/
def mark : Json → Char
  | null => 'n'
  | bool value => if value then 't' else 'f'
  | number _ => '0'
  | string _ => '"'
  | array _ => '['
  | object _ => '{'

theorem exists_chars_cons (j : Json) :
    ∃ c cs, j.chars = c :: cs ∧ (if c.isDigit then '0' else c) = j.mark := by
  cases j with
  | null => exact ⟨_, _, rfl, rfl⟩
  | bool value => cases value <;> exact ⟨_, _, rfl, rfl⟩
  | number n =>
    obtain ⟨c, cs, hcs⟩ := List.exists_cons_of_ne_nil (Nat.toDigits_ne_nil (n := n) (b := 10))
    have hc : c.isDigit = true :=
      Nat.isDigit_of_mem_toDigits (by decide) (by decide) (hcs ▸ List.mem_cons_self)
    exact ⟨c, cs, hcs, if_pos hc⟩
  | string s => exact ⟨_, _, rfl, rfl⟩
  | array items => exact ⟨_, _, rfl, rfl⟩
  | object entries => exact ⟨_, _, rfl, rfl⟩

/-- Values with spellings that begin alike are of one kind. -/
theorem mark_eq {j k : Json} {xs ys : List Char} (h : j.chars ++ xs = k.chars ++ ys) :
    j.mark = k.mark := by
  obtain ⟨c, cs, hj, hc⟩ := exists_chars_cons j
  obtain ⟨d, ds, hk, hd⟩ := exists_chars_cons k
  rw [hj, hk] at h
  rw [← hc, ← hd, (List.cons.inj h).1]

/-- No value begins with the bracket that closes an array. -/
theorem chars_append_ne_closeBracket (j : Json) (xs ys : List Char) :
    j.chars ++ xs ≠ ']' :: ys := by
  intro h
  obtain ⟨c, cs, hj, hc⟩ := exists_chars_cons j
  rw [hj] at h
  obtain rfl := (List.cons.inj h).1
  rcases j with _ | (_ | _) | _ | _ | _ | _ <;> exact absurd hc (by simp [mark])

/-! ### Values -/

/-- What stands behind an item of an array: more items, or the end of the array. -/
def behindItem (items : List Json) (rest : List Char) : List Char :=
  match items with
  | [] => ']' :: rest
  | item :: items => ',' :: (itemChars (item :: items) ++ ']' :: rest)

/-- What stands behind an entry of an object: more entries, or the end of the object. -/
def behindEntry (entries : List (String × Json)) (rest : List Char) : List Char :=
  match entries with
  | [] => '}' :: rest
  | entry :: entries => ',' :: (entryChars (entry :: entries) ++ '}' :: rest)

theorem itemChars_cons_append (item : Json) (items : List Json) (rest : List Char) :
    itemChars (item :: items) ++ ']' :: rest = item.chars ++ behindItem items rest := by
  cases items <;> simp [itemChars, behindItem]

theorem entryChars_cons_append (key : String) (value : Json) (entries : List (String × Json))
    (rest : List Char) : entryChars ((key, value) :: entries) ++ '}' :: rest =
      quoted key ++ ':' :: (value.chars ++ behindEntry entries rest) := by
  cases entries <;> simp [entryChars, behindEntry]

theorem takeWhile_behindItem (items : List Json) (rest : List Char) :
    (behindItem items rest).takeWhile Char.isDigit = [] := by
  cases items <;> rfl

theorem takeWhile_behindEntry (entries : List (String × Json)) (rest : List Char) :
    (behindEntry entries rest).takeWhile Char.isDigit = [] := by
  cases entries <;> rfl

mutual

/-- **A value is over where it is over**: a text that begins with a value determines the
value and what stands behind it. -/
theorem chars_append_inj : ∀ (j k : Json) {xs ys : List Char},
    xs.takeWhile Char.isDigit = [] → ys.takeWhile Char.isDigit = [] →
      j.chars ++ xs = k.chars ++ ys → j = k ∧ xs = ys
  | .null, k, xs, ys, _, _, h => by
    have hmark := mark_eq h
    rcases k with _ | (_ | _) | _ | _ | _ | _ <;> simp [mark] at hmark
    exact ⟨rfl, List.append_cancel_left h⟩
  | .bool value, k, xs, ys, _, _, h => by
    have hmark := mark_eq h
    rcases value with _ | _ <;> rcases k with _ | (_ | _) | _ | _ | _ | _ <;> simp [mark] at hmark
    · exact ⟨rfl, List.append_cancel_left h⟩
    · exact ⟨rfl, List.append_cancel_left h⟩
  | .number n, k, xs, ys, hxs, hys, h => by
    have hmark := mark_eq h
    rcases k with _ | (_ | _) | m | _ | _ | _ <;> simp [mark] at hmark
    exact (toDigits_append_inj hxs hys h).imp_left (congrArg number)
  | .string s, k, xs, ys, _, _, h => by
    have hmark := mark_eq h
    rcases k with _ | (_ | _) | _ | t | _ | _ <;> simp [mark] at hmark
    exact (quoted_append_inj h).imp_left (congrArg string)
  | .array items, k, xs, ys, _, _, h => by
    have hmark := mark_eq h
    rcases k with _ | (_ | _) | _ | _ | items' | _ <;> simp [mark] at hmark
    simp only [chars, List.cons_append, List.append_assoc, List.nil_append] at h
    exact (itemChars_append_inj items items' (List.cons.inj h).2).imp_left (congrArg array)
  | .object entries, k, xs, ys, _, _, h => by
    have hmark := mark_eq h
    rcases k with _ | (_ | _) | _ | _ | _ | entries' <;> simp [mark] at hmark
    simp only [chars, List.cons_append, List.append_assoc, List.nil_append] at h
    exact (entryChars_append_inj entries entries' (List.cons.inj h).2).imp_left (congrArg object)

/-- The items of an array are over at the bracket that closes it. -/
theorem itemChars_append_inj : ∀ (items items' : List Json) {xs ys : List Char},
    itemChars items ++ ']' :: xs = itemChars items' ++ ']' :: ys → items = items' ∧ xs = ys
  | [], [], _, _, h => ⟨rfl, (List.cons.inj h).2⟩
  | [], item' :: items', _, _, h => by
    rw [itemChars_cons_append] at h
    exact absurd h.symm (chars_append_ne_closeBracket item' _ _)
  | item :: items, [], _, _, h => by
    rw [itemChars_cons_append] at h
    exact absurd h (chars_append_ne_closeBracket item _ _)
  | item :: items, item' :: items', xs, ys, h => by
    rw [itemChars_cons_append, itemChars_cons_append] at h
    obtain ⟨rfl, hrest⟩ := chars_append_inj item item' (takeWhile_behindItem items xs)
      (takeWhile_behindItem items' ys) h
    -- what is left tells whether more items follow
    rcases items with _ | ⟨next, items⟩ <;> rcases items' with _ | ⟨next', items'⟩
    · exact ⟨rfl, (List.cons.inj hrest).2⟩
    · exact absurd (List.cons.inj hrest).1 (by decide)
    · exact absurd (List.cons.inj hrest).1 (by decide)
    · exact (itemChars_append_inj (next :: items) (next' :: items')
        (List.cons.inj hrest).2).imp_left (congrArg (item :: ·))

/-- The entries of an object are over at the brace that closes it. -/
theorem entryChars_append_inj : ∀ (entries entries' : List (String × Json)) {xs ys : List Char},
    entryChars entries ++ '}' :: xs = entryChars entries' ++ '}' :: ys →
      entries = entries' ∧ xs = ys
  | [], [], _, _, h => ⟨rfl, (List.cons.inj h).2⟩
  | [], (key', value') :: entries', _, _, h => by
    rw [entryChars_cons_append] at h
    exact absurd (List.cons.inj h).1 (by decide)
  | (key, value) :: entries, [], _, _, h => by
    rw [entryChars_cons_append] at h
    exact absurd (List.cons.inj h).1 (by decide)
  | (key, value) :: entries, (key', value') :: entries', xs, ys, h => by
    rw [entryChars_cons_append, entryChars_cons_append] at h
    obtain ⟨rfl, hvalue⟩ := quoted_append_inj h
    obtain ⟨rfl, hrest⟩ := chars_append_inj value value' (takeWhile_behindEntry entries xs)
      (takeWhile_behindEntry entries' ys) (List.cons.inj hvalue).2
    rcases entries with _ | ⟨next, entries⟩ <;> rcases entries' with _ | ⟨next', entries'⟩
    · exact ⟨rfl, (List.cons.inj hrest).2⟩
    · exact absurd (List.cons.inj hrest).1 (by decide)
    · exact absurd (List.cons.inj hrest).1 (by decide)
    · exact (entryChars_append_inj (next :: entries) (next' :: entries')
        (List.cons.inj hrest).2).imp_left (congrArg ((key, value) :: ·))

end

/-- **Different values have different texts.** -/
theorem text_inj {j k : Json} (h : j.text = k.text) : j = k := by
  have hchars : j.chars ++ [] = k.chars ++ [] := by
    rw [List.append_nil, List.append_nil]
    exact String.ofList_injective h
  exact (chars_append_inj j k rfl rfl hchars).1

end Json

end Phrasebook
