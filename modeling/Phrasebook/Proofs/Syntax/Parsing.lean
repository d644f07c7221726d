import Phrasebook.Expr.Parse
import Phrasebook.Proofs.Syntax.Completeness
import Phrasebook.Proofs.Syntax.Soundness
import Phrasebook.Proofs.Syntax.Spelling

/-!
# Parsing accepts the grammar

Put together, scanning and reading accept a text exactly if it spells a phrase
(`Phrasebook.Expr.parse_accepts_iff`): the scanner finds the one row of lexemes the text
spells, and the descent reads a row from its first lexeme to its last exactly if the row is
derived. A text that spells no row of lexemes is scanned to a row with a stray lexeme in it,
and no phrase has one.

The fuel of a descent is fixed before it begins and lasts: a sequence needs twelve more than
sixteen times the number of its lexemes, and it is given sixteen more.
-/

namespace Phrasebook

namespace Expr

/-! ### The end of a text -/

/-- A lexeme begins where some text is left. -/
theorem scanFrom_text_ne_nil (skip : Nat) (cs : List Char) : ∀ p ∈ scanFrom skip cs, p.2 ≠ [] := by
  induction cs generalizing skip with
  | nil => exact fun p hp => nomatch hp
  | cons c cs ih =>
    intro p hp
    rw [scanFrom.eq_def] at hp
    dsimp only at hp
    split at hp
    · exact ih _ p hp
    · split at hp
      · exact ih _ p hp
      · rcases List.mem_cons.mp hp with rfl | hp
        · exact List.cons_ne_nil _ _
        · exact ih _ p hp

/-- The text is at its end behind its last lexeme, and before none. -/
theorem textAt_eq_nil_iff {lexemes : List (Lexeme × List Char)} (h : ∀ p ∈ lexemes, p.2 ≠ [])
    {count : Nat} (hcount : count ≤ lexemes.length) : textAt lexemes count = [] ↔ count = 0 := by
  rw [textAt]
  split
  · rename_i hdrop
    have hlength := List.drop_eq_nil_iff.mp hdrop
    constructor
    · intro _
      omega
    · exact fun _ => rfl
  · rename_i l text after hdrop
    have hmem : (l, text) ∈ lexemes :=
      List.mem_of_mem_drop (hdrop ▸ List.mem_cons_self : (l, text) ∈ lexemes.drop _)
    constructor
    · exact fun htext => absurd htext (h _ hmem)
    · rintro rfl
      rw [Nat.sub_zero, List.drop_length] at hdrop
      exact nomatch hdrop

/-! ### What is parsed -/

/-- The fuel that grows with the lexemes is never used up on a phrase. -/
theorem Derives.sequenceOf_fuelFor {ls : List Lexeme} {e : Expr} (h : Derives .sequence ls e) :
    sequenceOf (fuelFor ls) ls = .done e [] := by
  have hfuel : 16 * ls.length + 12 ≤ fuelFor ls := by
    rw [fuelFor]
    omega
  have hread := h.found (fuelFor ls) [] hfuel (endsBefore_nil 11)
  rwa [List.append_nil] at hread

/-- A text is parsed to what its lexemes are derived to. -/
theorem parse_eq_ok_iff {source : String} {e : Expr} :
    parse source = .ok e ↔ Derives .sequence ((scan source.toList).map Prod.fst) e := by
  constructor
  · intro h
    unfold parse at h
    dsimp only at h
    split at h
    · rename_i e' rest hread
      obtain ⟨used, hused, hderives⟩ := (soundAt _).sequence hread
      have hcount : rest.length ≤ (scan source.toList).length := by
        have hlength := congrArg List.length hused
        rw [List.length_map, List.length_append] at hlength
        omega
      split at h
      · rename_i htext
        obtain rfl := Except.ok.inj h
        have hrest := (textAt_eq_nil_iff (scanFrom_text_ne_nil 0 _) hcount).mp htext
        rw [List.eq_nil_of_length_eq_zero hrest, List.append_nil] at hused
        rw [hused]
        exact hderives
      · exact nomatch h
    · exact nomatch h
    · exact nomatch h
  · intro h
    have htext := (textAt_eq_nil_iff (scanFrom_text_ne_nil 0 source.toList) (Nat.zero_le _)).mpr rfl
    unfold parse
    dsimp only
    rw [h.sequenceOf_fuelFor]
    dsimp only
    rw [show textAt (scan source.toList) ([] : List Lexeme).length = [] from htext]

/-- A text that spells a phrase is parsed to what the phrase stands for. -/
theorem parse_of_spells {source : String} {ls : List Lexeme} {e : Expr}
    (h : Spells source.toList ls) (hderives : Derives .sequence ls e) : parse source = .ok e := by
  rw [parse_eq_ok_iff, h.map_scan]
  exact hderives

/-- What is parsed is spelled. -/
theorem exists_spells_of_parse {source : String} {e : Expr} (h : parse source = .ok e) :
    ∃ ls, Spells source.toList ls ∧ Derives .sequence ls e := by
  have hderives := parse_eq_ok_iff.mp h
  refine ⟨_, spells_scan _ fun l hl => ?_, hderives⟩
  cases l with
  | stray c => exact absurd hl (Derives.not_stray hderives c)
  | _ => rfl

/-- **Parsing accepts exactly the grammar, and builds its trees.** A text is parsed to an
expression exactly if it spells a row of lexemes, with any blanks before, between and behind
them, that is a sequence of the grammar and stands for this expression. -/
theorem parse_accepts_iff (source : String) (e : Expr) :
    parse source = .ok e ↔ ∃ ls, Spells source.toList ls ∧ Derives .sequence ls e := by
  constructor
  · exact exists_spells_of_parse
  · rintro ⟨ls, hspells, hderives⟩
    exact parse_of_spells hspells hderives

/-- Texts in which all tiers meet, each loosest first or tightest first, with what they stand for;
the last two have other blanks than spaces, and none. -/
def tiersMixed : List (String × Expr) :=
  let a := identifier "a"; let b := identifier "b"; let c := identifier "c"
  let d := identifier "d"; let e := identifier "e"; let f := identifier "f"
  let g := identifier "g"
  [("a || b && c == d < e + f * g",
      .binary .or a (.binary .and b (.binary .eq c
        (.binary .lt d (.binary .add e (.binary .mul f g)))))),
   ("a % b - c >= d !== e && f || g",
      .binary .or (.binary .and (.binary .strictNotEq (.binary .ge
        (.binary .sub (.binary .rem a b) c) d) e) f) g),
   ("a - b - c / d / e", .binary .sub (.binary .sub a b) (.binary .div (.binary .div c d) e)),
   ("(a + b) * c", .binary .mul (.binary .add a b) c),
   ("\ta\u00a0? !b <= -2.50 :\u3000c\r\n, $_1['it\\'s\\n'] ",
      .sequence [.conditional a (.binary .le (.unary .not b) (.unary .minus (.number "2.50"))) c,
        .index (identifier "$_1") (.string "it's\n")]),
   ("typeof a===b!=new c.d(e)>f.g",
      .binary .notEq (.binary .strictEq (.unary .typeOf a) b)
        (.binary .gt (.construction (.member c "d") [e]) (.member f "g")))]

/-- Each of them is parsed to what it stands for, and is derived to that and to nothing else. -/
theorem parse_accepts_iff_tiersMixed : (∀ p ∈ tiersMixed, parse p.1 = .ok p.2) ∧
    ∀ p ∈ tiersMixed, ∀ e : Expr,
      (∃ ls, Spells p.1.toList ls ∧ Derives .sequence ls e) ↔ e = p.2 := by
  have hparse : ∀ p ∈ tiersMixed, parse p.1 = .ok p.2 := by decide +kernel
  refine ⟨hparse, fun p hp e => ?_⟩
  rw [← parse_accepts_iff, hparse p hp, Except.ok.injEq]
  exact eq_comm

example : parse "typeofx" = .ok (.identifier "typeofx") := by decide +kernel

example : parse " new a . b(c)[d]" =
    .ok (.index (.construction (.member (.identifier "a") "b") [.identifier "c"])
      (.identifier "d")) := by decide +kernel

end Expr

end Phrasebook
