import Mathlib.Data.List.Infix
import Phrasebook.Text.EditDistance

/-!
# Edits, and what a misspelt word may stand for

An **edit** puts in, takes out or replaces one character anywhere in a text (`Phrasebook.Edit`), and
texts may be taken into each other by many edits or by few (`Phrasebook.Edits`). The edit distance
is computed without any edits in sight, one row of numbers after the other, so it has to be shown
that it is the least number of edits (`Phrasebook.fewestEdits_editDistance`).

In between stands the recursion that the rows are filled with (`Phrasebook.distance`): it goes over
both texts from the front, and decides about their first characters only. That many edits suffice,
by the recursion itself. That fewer do not is seen the other way round: one edit changes the
distance to any third text by one at most (`Phrasebook.Edit.distance_le`), wherever in the text it
is made, because putting a character in front of two texts does not part them any further
(`Phrasebook.distance_cons_congr`).

The suggestions for a word are then the candidates within a few edits of it, the closest first
(`Phrasebook.closest_suggests`). A candidate may be listed twice, so the statement is about the
candidates with their places.
-/

namespace Phrasebook

/-! ### Edits -/

/-- **One edit** of a text. -/
inductive Edit : List Char → List Char → Prop
  | insert (before after : List Char) (c : Char) : Edit (before ++ after) (before ++ c :: after)
  | delete (before after : List Char) (c : Char) : Edit (before ++ c :: after) (before ++ after)
  | substitute (before after : List Char) (c d : Char) :
    Edit (before ++ c :: after) (before ++ d :: after)

/-- **A number of edits** one after the other. -/
inductive Edits : Nat → List Char → List Char → Prop
  | none (s : List Char) : Edits 0 s s
  | more {n : Nat} {s t u : List Char} (h : Edit s t) (hs : Edits n t u) : Edits (n + 1) s u

/-- **The least number of edits** that take one text into another. -/
def FewestEdits (n : Nat) (a b : String) : Prop :=
  Edits n a.toList b.toList ∧ ∀ m, Edits m a.toList b.toList → n ≤ m

theorem Edit.cons {s t : List Char} (h : Edit s t) (c : Char) : Edit (c :: s) (c :: t) := by
  cases h with
  | insert before after d => exact .insert (c :: before) after d
  | delete before after d => exact .delete (c :: before) after d
  | substitute before after d e => exact .substitute (c :: before) after d e

theorem Edits.cons {n : Nat} {s t : List Char} (h : Edits n s t) (c : Char) :
    Edits n (c :: s) (c :: t) := by
  induction h with
  | none s => exact .none (c :: s)
  | more h _ ih => exact .more (h.cons c) ih

theorem Edits.min {m n : Nat} {s t : List Char} (hm : Edits m s t) (hn : Edits n s t) :
    Edits (min m n) s t := by
  rcases Nat.le_total m n with h | h
  · rwa [Nat.min_eq_left h]
  · rwa [Nat.min_eq_right h]

/-! ### The recursion behind the rows -/

/-- **The distance of two texts**, by their first characters: one of them is put in or taken out,
or the one is put for the other. -/
def distance : List Char → List Char → Nat
  | [], t => t.length
  | s, [] => s.length
  | c :: s, d :: t =>
    min (min (distance s (d :: t) + 1) (distance (c :: s) t + 1))
      (distance s t + if c = d then 0 else 1)

theorem distance_nil_left (t : List Char) : distance [] t = t.length := by
  rw [distance]

theorem distance_nil_right (s : List Char) : distance s [] = s.length := by
  cases s with
  | nil => rw [distance_nil_left]
  | cons c s =>
    rw [distance]
    exact fun h => nomatch h

theorem distance_cons_cons (c d : Char) (s t : List Char) :
    distance (c :: s) (d :: t) =
      min (min (distance s (d :: t) + 1) (distance (c :: s) t + 1))
        (distance s t + if c = d then 0 else 1) := by
  rw [distance]

theorem exists_tails_eq (t : List Char) : ∃ shorter, t.tails = t :: shorter := by
  cases t with
  | nil => exact ⟨[], rfl⟩
  | cons d t => exact ⟨t.tails, List.tails_cons d t⟩

theorem emptyRow_eq (t : List Char) : emptyRow t = t.tails.map (distance []) := by
  induction t with
  | nil => simp [emptyRow, distance_nil_left]
  | cons d t ih => rw [emptyRow, ih, List.tails_cons, List.map_cons, distance_nil_left]; rfl

/-- **The next row** holds the distances of a text with one more character in front. -/
theorem nextRow_eq (c : Char) (s t : List Char) :
    nextRow c t (t.tails.map (distance s)) = t.tails.map (distance (c :: s)) := by
  induction t with
  | nil => simp [nextRow, distance_nil_right]
  | cons d t ih =>
    obtain ⟨shorter, htails⟩ := exists_tails_eq t
    rw [List.tails_cons]
    rw [htails] at ih ⊢
    simp only [List.map_cons] at ih ⊢
    rw [nextRow, ih, distance_cons_cons]

/-- A row holds the distances to the endings of a text. -/
theorem distanceRow_eq (t s : List Char) : distanceRow t s = t.tails.map (distance s) := by
  induction s with
  | nil => exact emptyRow_eq t
  | cons c s ih => rw [distanceRow, ih, nextRow_eq]

theorem editDistance_eq (a b : String) : editDistance a b = distance a.toList b.toList := by
  obtain ⟨shorter, htails⟩ := exists_tails_eq b.toList
  rw [editDistance, distanceRow_eq, htails]
  rfl

/-! ### Enough edits -/

theorem edits_insertAll (t : List Char) : Edits t.length [] t := by
  induction t with
  | nil => exact .none []
  | cons d t ih => exact .more (.insert [] [] d) (ih.cons d)

theorem edits_deleteAll (s : List Char) : Edits s.length s [] := by
  induction s with
  | nil => exact .none []
  | cons c s ih => exact .more (.delete [] s c) ih

/-- **The distance is a number of edits.** -/
theorem edits_distance (s t : List Char) : Edits (distance s t) s t := by
  fun_induction distance s t with
  | case1 t => exact edits_insertAll t
  | case2 s => exact edits_deleteAll s
  | case3 c s d t ihdelete ihinsert ihboth =>
    have hdelete : Edits (distance s (d :: t) + 1) (c :: s) (d :: t) :=
      .more (.delete [] s c) ihdelete
    have hinsert : Edits (distance (c :: s) t + 1) (c :: s) (d :: t) :=
      .more (.insert [] (c :: s) d) (ihinsert.cons d)
    have hboth : Edits (distance s t + if c = d then 0 else 1) (c :: s) (d :: t) := by
      by_cases hcd : c = d
      · rw [if_pos hcd, hcd]
        exact ihboth.cons d
      · rw [if_neg hcd]
        exact .more (.substitute [] s c d) (ihboth.cons d)
    exact (hdelete.min hinsert).min hboth

/-! ### No fewer edits -/

theorem distance_self (s : List Char) : distance s s = 0 := by
  induction s with
  | nil => rw [distance_nil_left]; rfl
  | cons c s ih =>
    rw [distance_cons_cons, ih, if_pos rfl]
    exact Nat.min_zero _

theorem distance_cons_left_le (c : Char) (s u : List Char) :
    distance (c :: s) u ≤ distance s u + 1 := by
  cases u with
  | nil => rw [distance_nil_right, distance_nil_right, List.length_cons]
  | cons e u =>
    rw [distance_cons_cons]
    omega

theorem distance_cons_right_le (s : List Char) (e : Char) (u : List Char) :
    distance s (e :: u) ≤ distance s u + 1 := by
  cases s with
  | nil => rw [distance_nil_left, distance_nil_left, List.length_cons]
  | cons c s =>
    rw [distance_cons_cons]
    omega

theorem distance_le_cons_left (c : Char) (s u : List Char) :
    distance s u ≤ distance (c :: s) u + 1 := by
  induction u with
  | nil =>
    rw [distance_nil_right, distance_nil_right, List.length_cons]
    omega
  | cons e u ih =>
    have hright := distance_cons_right_le s e u
    rw [distance_cons_cons]
    omega

theorem distance_substitute_le (c d : Char) (s u : List Char) :
    distance (c :: s) u ≤ distance (d :: s) u + 1 := by
  induction u with
  | nil =>
    rw [distance_nil_right, distance_nil_right]
    exact Nat.le_succ _
  | cons e u ih =>
    rw [distance_cons_cons, distance_cons_cons]
    split <;> split <;> omega

/-- **A character in front of two texts does not part them.** -/
theorem distance_cons_congr {s t : List Char} (h : ∀ u, distance s u ≤ distance t u + 1) (c : Char)
    (u : List Char) : distance (c :: s) u ≤ distance (c :: t) u + 1 := by
  induction u with
  | nil =>
    have hnil := h []
    rw [distance_nil_right, distance_nil_right] at hnil ⊢
    exact Nat.succ_le_succ hnil
  | cons e u ih =>
    have hwhole := h (e :: u)
    have hshorter := h u
    rw [distance_cons_cons, distance_cons_cons]
    omega

theorem distance_append_congr {s t : List Char} (h : ∀ u, distance s u ≤ distance t u + 1)
    (before u : List Char) : distance (before ++ s) u ≤ distance (before ++ t) u + 1 := by
  induction before generalizing u with
  | nil => exact h u
  | cons c before ih => exact distance_cons_congr ih c u

/-- **An edit changes the distance to any text by one at most.** -/
theorem Edit.distance_le {s t : List Char} (h : Edit s t) (u : List Char) :
    distance s u ≤ distance t u + 1 := by
  cases h with
  | insert before after c => exact distance_append_congr (distance_le_cons_left c after) before u
  | delete before after c => exact distance_append_congr (distance_cons_left_le c after) before u
  | substitute before after c d =>
    exact distance_append_congr (distance_substitute_le c d after) before u

theorem Edits.distance_le {n : Nat} {s t : List Char} (h : Edits n s t) : distance s t ≤ n := by
  induction h with
  | none s => exact Nat.le_of_eq (distance_self s)
  | more h _ ih => exact (h.distance_le _).trans (Nat.succ_le_succ ih)

/-- **The edit distance is the least number of edits.** -/
theorem fewestEdits_editDistance (a b : String) : FewestEdits (editDistance a b) a b := by
  rw [editDistance_eq]
  exact ⟨edits_distance a.toList b.toList, fun _ h => h.distance_le⟩

/-! ### Suggestions -/

/-- **One candidate goes before another**, each with its place: it takes fewer edits, or as many
and it is listed first. -/
def Precedes (word : String) (p q : String × Nat) : Prop :=
  ∃ m n, FewestEdits m word p.1 ∧ FewestEdits n word q.1 ∧ (m < n ∨ m = n ∧ p.2 < q.2)

/-- **A word is near a candidate** if a few edits take it there: one is few for a word of three
characters or less, two for any other. -/
def Near (word candidate : String) : Prop :=
  ∃ n, n ≤ (if word.length ≤ 3 then 1 else 2) ∧ Edits n word.toList candidate.toList

/-- **What to suggest for a word**: some of the candidates, each with its place in the list. -/
structure Suggests (word : String) (candidates : List String) (picks : List (String × Nat)) :
    Prop where
  mem : ∀ p ∈ picks, p ∈ candidates.zipIdx
  near : ∀ p ∈ picks, Near word p.1
  ordered : picks.Pairwise (Precedes word)
  length_le : picks.length ≤ 3
  left_out : ∀ p ∈ candidates.zipIdx, p ∉ picks → Near word p.1 →
    picks.length = 3 ∧ ∀ q ∈ picks, Precedes word q p

theorem near_iff {word candidate : String} :
    Near word candidate ↔ editDistance word candidate ≤ editTolerance word := by
  constructor
  · rintro ⟨n, hn, hedits⟩
    exact ((fewestEdits_editDistance word candidate).2 n hedits).trans hn
  · exact fun h => ⟨_, h, (fewestEdits_editDistance word candidate).1⟩

theorem precedes_of_editDistance {word : String} {p q : String × Nat}
    (h : editDistance word p.1 < editDistance word q.1 ∨
      editDistance word p.1 = editDistance word q.1 ∧ p.2 < q.2) : Precedes word p q :=
  ⟨_, _, fewestEdits_editDistance word p.1, fewestEdits_editDistance word q.1, h⟩

/-- The candidates near a word, each with its place in the list, in the order of that list. -/
def nearPlaces (word : String) (candidates : List String) : List (String × Nat) :=
  candidates.zipIdx.filter fun p => editDistance word p.1 ≤ editTolerance word

/-- The candidates near a word, the closest first. -/
def ranked (word : String) (candidates : List String) : List (String × Nat) :=
  (nearPlaces word candidates).mergeSort fun p q => editDistance word p.1 ≤ editDistance word q.1

section Sorting

variable {α : Type} (f : α → Nat) (xs : List α)

theorem decide_le_trans (x y z : α) (hxy : decide (f x ≤ f y) = true)
    (hyz : decide (f y ≤ f z) = true) : decide (f x ≤ f z) = true :=
  decide_eq_true ((of_decide_eq_true hxy).trans (of_decide_eq_true hyz))

theorem decide_le_total (x y : α) : (decide (f x ≤ f y) || decide (f y ≤ f x)) = true := by
  rw [Bool.or_eq_true, decide_eq_true_iff, decide_eq_true_iff]
  exact Nat.le_total (f x) (f y)

theorem pairwise_mergeSort_le : (xs.mergeSort fun x y => f x ≤ f y).Pairwise (f · ≤ f ·) :=
  (List.pairwise_mergeSort (decide_le_trans f) (decide_le_total f) xs).imp of_decide_eq_true

/-- **A sort does not reorder what it does not tell apart.** -/
theorem filter_mergeSort_eq (n : Nat) :
    (xs.mergeSort fun x y => f x ≤ f y).filter (f · = n) = xs.filter (f · = n) := by
  have hlevel : (xs.filter (f · = n)).Pairwise fun x y => decide (f x ≤ f y) = true := by
    refine List.pairwise_of_forall_mem_list fun x hx y hy => ?_
    have hx := of_decide_eq_true (List.mem_filter.mp hx).2
    have hy := of_decide_eq_true (List.mem_filter.mp hy).2
    exact decide_eq_true (hx.trans hy.symm).le
  have hsub := (List.sublist_mergeSort (decide_le_trans f) (decide_le_total f) hlevel
    List.filter_sublist).filter (f · = n)
  have hself : (xs.filter (f · = n)).filter (f · = n) = xs.filter (f · = n) :=
    List.filter_eq_self.mpr fun x hx => (List.mem_filter.mp hx).2
  have hlength := ((List.mergeSort_perm xs fun x y => f x ≤ f y).filter (f · = n)).length_eq
  rw [hself] at hsub
  exact (hsub.eq_of_length hlength.symm).symm

end Sorting

variable (word : String) (candidates : List String)

theorem mem_ranked {p : String × Nat} :
    p ∈ ranked word candidates ↔ p ∈ candidates.zipIdx ∧ Near word p.1 := by
  rw [ranked, List.mem_mergeSort, nearPlaces, List.mem_filter, decide_eq_true_iff, near_iff]

theorem pairwise_zipIdx (k : Nat) : (candidates.zipIdx k).Pairwise fun p q => p.2 < q.2 := by
  rw [← List.pairwise_map, List.zipIdx_map_snd]
  exact List.pairwise_lt_range'

/-- **The order of the list is kept** among candidates that are equally close. -/
theorem pairwise_ranked : (ranked word candidates).Pairwise (Precedes word) := by
  refine List.pairwise_of_forall_sublist fun {p q} hpq => precedes_of_editDistance ?_
  have hle := (pairwise_mergeSort_le (fun p : String × Nat => editDistance word p.1)
    (nearPlaces word candidates)).forall_sublist hpq
  refine (Nat.lt_or_eq_of_le hle).imp_right fun heq => ⟨heq, ?_⟩
  -- both stand among the candidates at one distance, in the order of the list
  have hlevel := hpq.filter fun r => editDistance word r.1 = editDistance word q.1
  rw [ranked, filter_mergeSort_eq (fun p : String × Nat => editDistance word p.1), List.filter_cons,
    if_pos (decide_eq_true heq), List.filter_cons, if_pos (decide_eq_true rfl),
    List.filter_nil] at hlevel
  exact (((pairwise_zipIdx candidates 0).filter _).filter _).forall_sublist hlevel

theorem closest_eq :
    closest word candidates = ((ranked word candidates).take 3).map Prod.fst := by
  have hnear : (candidates.map fun c => (editDistance word c, c)).filter
      (fun p => p.1 ≤ editTolerance word) =
        (nearPlaces word candidates).map fun p => (editDistance word p.1, p.1) := by
    conv_lhs => rw [← List.zipIdx_map_fst 0 candidates, List.map_map, List.filter_map]
    rfl
  have hsort := List.map_mergeSort (f := fun p : String × Nat => (editDistance word p.1, p.1))
    (r := fun p q => editDistance word p.1 ≤ editDistance word q.1)
    (s := fun p q => p.1 ≤ q.1) (l := nearPlaces word candidates) fun _ _ _ _ => rfl
  change ((((candidates.map fun c => (editDistance word c, c)).filter
    fun p => p.1 ≤ editTolerance word).mergeSort fun p q => p.1 ≤ q.1).take 3).map Prod.snd = _
  rw [hnear, ← hsort, ← ranked, ← List.map_take, List.map_map]
  rfl

/-- **The suggestions for a word are the closest candidates**: at most three of those near it, by
the number of edits they take, and in the order of the list where it takes as many; what else is
near comes after all of them. -/
theorem closest_suggests : ∃ picks, Suggests word candidates picks ∧
    closest word candidates = picks.map Prod.fst := by
  have hordered := pairwise_ranked word candidates
  refine ⟨(ranked word candidates).take 3, ?_, closest_eq word candidates⟩
  refine
    { mem := fun p hp => ((mem_ranked word candidates).mp (List.mem_of_mem_take hp)).1
      near := fun p hp => ((mem_ranked word candidates).mp (List.mem_of_mem_take hp)).2
      ordered := hordered.take
      length_le := List.length_take_le 3 _
      left_out := fun p hp hout hnear => ?_ }
  have hmem : p ∈ ranked word candidates := (mem_ranked word candidates).mpr ⟨hp, hnear⟩
  rw [← List.take_append_drop 3 (ranked word candidates)] at hmem hordered
  have hdrop := (List.mem_append.mp hmem).resolve_left hout
  refine ⟨?_, fun q hq => (List.pairwise_append.mp hordered).2.2 q hq p hdrop⟩
  have hlength := List.length_pos_of_mem hdrop
  rw [List.length_drop] at hlength
  rw [List.length_take]
  omega

example : closest "shwCont" ["value", "showCount", "name", "many", "count"] =
    ["showCount"] := by decide +kernel

end Phrasebook
