import Mathlib.Data.List.Basic
import Mathlib.Data.List.Induction
import Phrasebook.Batch

/-!
# What a report on a batch says

A report is written one result at a time, and what it says of the results so far is not
touched by the next: that one is entered behind all others, in the list it belongs to. So a
report accounts for every phrase of its batch, in order, with what the phrase is compiled to by
itself (`Phrasebook.BatchResult.ReportsOn`).

Cutting a batch into runs for several workers loses no phrase and moves none
(`Phrasebook.flatten_workOf`), so the results that come back are those of the whole batch, and
the report on them is the same (`Phrasebook.compileAllOn_reports`). The runs are as long as it
takes for there to be no more of them than workers; where there are more workers than phrases,
some get no work, rather than an empty run.
-/

namespace Phrasebook

/-! ### Cutting a batch -/

section Runs

variable {α : Type}

/-- Runs put together again are the list they were cut from. -/
theorem flatten_runsOf (size : Nat) (xs : List α) : (runsOf size xs).flatten = xs := by
  fun_induction runsOf size xs with
  | case1 => rfl
  | case2 x rest ih => rw [List.flatten_cons, ih, List.cons_append, List.take_append_drop]

theorem nil_notMem_runsOf (size : Nat) (xs : List α) : [] ∉ runsOf size xs := by
  fun_induction runsOf size xs with
  | case1 => exact List.not_mem_nil
  | case2 x rest ih =>
    rw [List.mem_cons, not_or]
    exact ⟨(List.cons_ne_nil _ _).symm, ih⟩

/-- There are no more runs than it takes to hold the list. -/
theorem length_runsOf_le (size : Nat) (xs : List α) {bound : Nat}
    (h : xs.length ≤ bound * (size + 1)) : (runsOf size xs).length ≤ bound := by
  fun_induction runsOf size xs generalizing bound with
  | case1 => exact Nat.zero_le _
  | case2 x rest ih =>
    cases bound with
    | zero =>
      rw [List.length_cons] at h
      omega
    | succ bound =>
      have hrest : (rest.drop size).length ≤ bound * (size + 1) := by
        rw [List.length_cons, Nat.add_mul] at h
        rw [List.length_drop]
        omega
      rw [List.length_cons]
      exact Nat.succ_le_succ (ih hrest)

/-- **Cutting a batch loses no phrase and moves none.** -/
theorem flatten_workOf (workers : Nat) (xs : List α) : (workOf workers xs).flatten = xs :=
  flatten_runsOf _ xs

/-- **There are at most as many runs as workers**, as long as there are workers. -/
theorem length_workOf_le {workers : Nat} (h : 1 ≤ workers) (xs : List α) :
    (workOf workers xs).length ≤ workers := by
  refine length_runsOf_le _ xs ?_
  rcases Nat.eq_zero_or_pos xs.length with hlength | hlength
  · rw [hlength]
    exact Nat.zero_le _
  · -- the quotient is rounded up, and is not zero since there is a phrase
    have hquotient : 1 ≤ (xs.length + workers - 1) / workers :=
      (Nat.one_le_div_iff h).mpr (by omega)
    have hrounded := Nat.lt_mul_div_succ (xs.length + workers - 1) h
    rw [Nat.sub_add_cancel hquotient]
    rw [Nat.mul_add, Nat.mul_one] at hrounded
    omega

end Runs

/-! ### Writing a report -/

namespace BatchResult

/-- **A report on some results**: the phrases that were compiled, and those that were not, each
with the result at its place, in the order of their places. -/
structure ReportsOn (r : BatchResult) (results : List (Except CompileError CompiledPhrase)) :
    Prop where
  compiled : ∀ place c, (place, c) ∈ r.compiled ↔ results[place]? = some (.ok c)
  failures : ∀ place e, (place, e) ∈ r.failures ↔ results[place]? = some (.error e)
  compiled_increasing : (r.compiled.map Prod.fst).Pairwise (· < ·)
  failures_increasing : (r.failures.map Prod.fst).Pairwise (· < ·)
  phrases : r.compiled.map Prod.snd = results.filterMap Except.toOption

variable {r : BatchResult} {results : List (Except CompileError CompiledPhrase)}

theorem getElem?_concat_eq_some {α : Type} {xs : List α} {x y : α} {i : Nat} :
    (xs ++ [x])[i]? = some y ↔ xs[i]? = some y ∨ i = xs.length ∧ x = y := by
  rcases Nat.lt_trichotomy i xs.length with hi | rfl | hi
  · rw [List.getElem?_append_left hi]
    exact (or_iff_left fun h => absurd h.1 (Nat.ne_of_lt hi)).symm
  · simp
  · have hnone : (xs ++ [x])[i]? = none := List.getElem?_eq_none (by simp; omega)
    have hnone' : xs[i]? = none := List.getElem?_eq_none (Nat.le_of_lt hi)
    simp [hnone, hnone', Nat.ne_of_gt hi]

/-- A new entry behind entries for the places before keeps them increasing. -/
theorem pairwise_concat {α : Type} {entries : List (Nat × α)} {x : α} {count : Nat}
    (h : (entries.map Prod.fst).Pairwise (· < ·)) (hbelow : ∀ e ∈ entries, e.1 < count) :
    ((entries ++ [(count, x)]).map Prod.fst).Pairwise (· < ·) := by
  rw [List.map_append, List.pairwise_append]
  refine ⟨h, List.pairwise_singleton _ _, fun i hi j hj => ?_⟩
  obtain ⟨e, he, rfl⟩ := List.mem_map.mp hi
  obtain rfl : j = count := by simpa using hj
  exact hbelow e he

namespace ReportsOn

theorem empty : ReportsOn {} [] :=
  ⟨by simp, by simp, List.Pairwise.nil, List.Pairwise.nil, rfl⟩

/-- What is reported stands at a place of the batch. -/
theorem lt_length (h : r.ReportsOn results) :
    (∀ e ∈ r.compiled, e.1 < results.length) ∧ ∀ e ∈ r.failures, e.1 < results.length := by
  constructor
  · rintro ⟨place, c⟩ he
    exact (List.getElem?_eq_some_iff.mp ((h.compiled place c).mp he)).1
  · rintro ⟨place, e⟩ he
    exact (List.getElem?_eq_some_iff.mp ((h.failures place e).mp he)).1

/-- **One entry more** makes a report on one result more. -/
theorem record (h : r.ReportsOn results) (result : Except CompileError CompiledPhrase) :
    (r.record results.length result).ReportsOn (results ++ [result]) := by
  obtain ⟨hcompiled, hfailures⟩ := h.lt_length
  cases result with
  | ok c =>
    refine ⟨fun place d => ?_, fun place e => ?_, ?_, ?_, ?_⟩
    · rw [getElem?_concat_eq_some, ← h.compiled]
      simp [BatchResult.record, eq_comm]
    · rw [getElem?_concat_eq_some, ← h.failures]
      simp [BatchResult.record]
    · exact pairwise_concat h.compiled_increasing hcompiled
    · exact h.failures_increasing
    · rw [BatchResult.record, List.map_append, List.filterMap_append, h.phrases]
      rfl
  | error e =>
    refine ⟨fun place d => ?_, fun place e => ?_, ?_, ?_, ?_⟩
    · rw [getElem?_concat_eq_some, ← h.compiled]
      simp [BatchResult.record]
    · rw [getElem?_concat_eq_some, ← h.failures]
      simp [BatchResult.record, eq_comm]
    · exact h.compiled_increasing
    · exact pairwise_concat h.failures_increasing hfailures
    · rw [BatchResult.record, List.filterMap_append, h.phrases]
      exact (List.append_nil _).symm

/-- No phrase is both compiled and rejected. -/
theorem disjoint (h : r.ReportsOn results) :
    (r.compiled.map Prod.fst).Disjoint (r.failures.map Prod.fst) := by
  intro place hcompiled hfailed
  obtain ⟨⟨_, c⟩, hc, rfl⟩ := List.mem_map.mp hcompiled
  obtain ⟨⟨_, e⟩, he, rfl⟩ := List.mem_map.mp hfailed
  have hresult := (h.failures _ e).mp he
  rw [(h.compiled _ c).mp hc] at hresult
  exact nomatch hresult

/-- Every place of the batch is reported on, and no other. -/
theorem mem_places (h : r.ReportsOn results) (place : Nat) :
    place ∈ r.compiled.map Prod.fst ∨ place ∈ r.failures.map Prod.fst ↔
      place < results.length := by
  constructor
  · rintro (hmem | hmem) <;> obtain ⟨entry, hentry, rfl⟩ := List.mem_map.mp hmem
    · exact h.lt_length.1 entry hentry
    · exact h.lt_length.2 entry hentry
  · intro hlt
    have hresult := List.getElem?_eq_getElem hlt
    rcases hvalue : results[place] with e | c <;> rw [hvalue] at hresult
    · exact Or.inr (List.mem_map.mpr ⟨(place, e), (h.failures place e).mpr hresult, rfl⟩)
    · exact Or.inl (List.mem_map.mpr ⟨(place, c), (h.compiled place c).mpr hresult, rfl⟩)

/-- What is handed to translators, in the order of the batch. -/
theorem map_snd_extracted (h : r.ReportsOn results) :
    r.extracted.map Prod.snd =
      (results.filterMap Except.toOption).filter (!·.doNotExtract) := by
  rw [← h.phrases, List.filter_map]
  rfl

end ReportsOn

/-- **A report on results, written one after the other, reports on all of them.** -/
theorem reportsOn_ofResults (results : List (Except CompileError CompiledPhrase)) :
    (ofResults results).ReportsOn results := by
  induction results using List.reverseRecOn with
  | nil => exact .empty
  | append_singleton results result ih =>
    have hstep : ofResults (results ++ [result]) =
        (ofResults results).record results.length result := by
      rw [ofResults, List.zipIdx_append, List.foldl_append, ← ofResults, Nat.zero_add]
      rfl
    rw [hstep]
    exact ih.record result

end BatchResult

/-- Compiling phrase by phrase, or all of them before the report is written, is the same. -/
theorem compileAll_eq (config : Config) (phrases : List Phrase) :
    compileAll config phrases = .ofResults (phrases.map (compile config)) := by
  rw [compileAll, BatchResult.ofResults, List.zipIdx_map, List.foldl_map]
  rfl

/-- **A batch is compiled phrase by phrase, however it is split.** On any number of workers the
report is the same; it accounts for each place of the batch once, with what the phrase there is
compiled to by itself; what is handed to translators are the compiled phrases that are not held
back, in their order; and the work is cut into no more runs than there are workers, none of them
empty. -/
theorem compileAllOn_reports (config : Config) (phrases : List Phrase) {workers : Nat}
    (h : 1 ≤ workers) :
    let r := compileAll config phrases
    compileAllOn workers config phrases = r ∧
      r.ReportsOn (phrases.map (compile config)) ∧
      (r.compiled.map Prod.fst).Disjoint (r.failures.map Prod.fst) ∧
      (∀ place, place ∈ r.compiled.map Prod.fst ∨ place ∈ r.failures.map Prod.fst ↔
        place < phrases.length) ∧
      r.extracted.map Prod.snd =
        (phrases.filterMap fun p => (compile config p).toOption).filter (!·.doNotExtract) ∧
      (workOf workers phrases).flatten = phrases ∧ (workOf workers phrases).length ≤ workers ∧
        [] ∉ workOf workers phrases := by
  intro r
  have hall : r = .ofResults (phrases.map (compile config)) := compileAll_eq config phrases
  have hr : r.ReportsOn (phrases.map (compile config)) :=
    hall ▸ BatchResult.reportsOn_ofResults _
  refine ⟨?_, hr, hr.disjoint, fun place => ?_, ?_, flatten_workOf workers phrases,
    length_workOf_le h phrases, nil_notMem_runsOf _ phrases⟩
  · rw [hall, compileAllOn, ← List.map_flatten, flatten_workOf]
  · rw [hr.mem_places, List.length_map]
  · rw [hr.map_snd_extracted, List.filterMap_map]
    rfl

/-- Three phrases, the second of which refers to a token that there is not. The third is not
for translators. -/
def noticesShown : List Phrase :=
  [{ description := "A greeting", children := [.construct (.text { value := "Hello" })] },
   { description := "A notice", children := [.construct (.sameParam { name := ⟨"nobody"⟩ })] },
   { description := "An id", options := { doNotExtract := true }
     children := [.construct (.param { name := ⟨"id"⟩, value := .identifier "id" })] }]

/-- On two workers they are compiled as on one, in two runs at most: the second is rejected,
and of the others one is handed to translators. -/
theorem compileAllOn_reports_noticesShown :
    1 ≤ 2 ∧ compileAllOn 2 {} noticesShown = compileAll {} noticesShown ∧
      (workOf 2 noticesShown).length ≤ 2 ∧
      (1, CompileError.unknownSameParam ⟨"nobody"⟩ {}) ∈ (compileAll {} noticesShown).failures ∧
      (compileAll {} noticesShown).extracted.length = 1 := by
  have htwo : 1 ≤ 2 := by decide
  obtain ⟨hsame, hreports, -, -, hextracted, -, hruns, -⟩ :=
    compileAllOn_reports {} noticesShown htwo
  refine ⟨htwo, hsame, hruns, (hreports.failures _ _).mpr rfl, ?_⟩
  rw [← List.length_map, hextracted]
  rfl

end Phrasebook
