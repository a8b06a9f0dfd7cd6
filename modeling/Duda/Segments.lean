import Mathlib.Tactic

/-!
# Non-empty segments between separators

The segments of a list are the non-empty pieces that the separators leave.
They are determined from the front: a piece free of separators is a segment
of its own or nothing, and a separator ends it.
-/

set_option autoImplicit false

namespace Duda.Segments

variable {α : Type*} [DecidableEq α]

def segments (sep : α) (s : List α) : List (List α) := (s.splitOn sep).filter (· ≠ [])

def keep (s : List α) : List (List α) := if s = [] then [] else [s]

theorem segments_append (sep : α) (s rest : List α) :
    segments sep (s++sep::rest) = segments sep s++segments sep rest := by
  rw [segments, List.splitOn_append_cons_self, List.filter_append]
  rfl

theorem segments_clean (sep : α) (s : List α) (h : sep ∉ s) : segments sep s = keep s := by
  rw [segments, List.splitOn_eq_singleton h]
  by_cases hs : s = []
  · simp [keep, hs]
  · simp [keep, hs]

theorem segments_clean_append (sep : α) (s rest : List α) (h : sep ∉ s) :
    segments sep (s++sep::rest) = keep s++segments sep rest := by
  rw [segments_append, segments_clean sep s h]

theorem segments_sep (sep : α) (rest : List α) :
    segments sep (sep::rest) = segments sep rest :=
  segments_clean_append sep [] rest (by simp)

theorem segments_join (sep : α) (ts : List (List α)) (h : ∀ t ∈ ts, t ≠ [] ∧ sep ∉ t) :
    segments sep (ts.flatMap (sep::·)) = ts := by
  induction ts with
  | nil => simp [segments]
  | cons t ts ih =>
    obtain ⟨hne,hclean⟩ := h t (by simp)
    have htail := ih (fun u hu => h u (by simp [hu]))
    have hkeep : keep t = [t] := by simp [keep, hne]
    rw [List.flatMap_cons, List.cons_append, segments_sep]
    cases ts with
    | nil => rw [List.flatMap_nil, List.append_nil, segments_clean sep t hclean, hkeep]
    | cons u us =>
      rw [List.flatMap_cons, List.cons_append] at htail ⊢
      rw [segments_sep] at htail
      rw [segments_clean_append sep t _ hclean, hkeep, htail]
      rfl

omit [DecidableEq α] in
theorem mem_intercalate (sep c : α) (ts : List (List α)) (t : List α) (ht : t ∈ ts) (hc : c ∈ t) :
    c ∈ [sep].intercalate ts := by
  induction ts with
  | nil => cases ht
  | cons u us ih =>
    cases us with
    | nil =>
      rw [List.mem_singleton] at ht
      simpa [List.intercalate, ← ht] using hc
    | cons v vs =>
      rw [List.intercalate_cons_cons, List.mem_append, List.mem_append]
      rcases List.mem_cons.mp ht with rfl | ht
      · exact .inl (.inl hc)
      · exact .inr (ih ht)

theorem segments_mem (sep c : α) (s t : List α) (ht : t ∈ segments sep s) (hc : c ∈ t) : c ∈ s := by
  have h := mem_intercalate sep c (s.splitOn sep) t (List.mem_of_mem_filter ht) hc
  rwa [List.intercalate_splitOn] at h

def weight {β : Type*} (ts : List (List β)) : ℕ := (ts.map fun t => t.length+1).sum

omit [DecidableEq α] in
theorem weight_join (sep : α) (ts : List (List α)) : (ts.flatMap (sep::·)).length = weight ts := by
  rw [List.length_flatMap, weight]
  rfl

omit [DecidableEq α] in
theorem weight_sublist {ts us : List (List α)} (h : List.Sublist ts us) : weight ts ≤ weight us :=
  List.Sublist.sum_le_sum (h.map _) (fun _ _ => Nat.zero_le _)

omit [DecidableEq α] in
theorem weight_keep (t : List α) : weight (keep t) ≤ t.length+1 := by
  rw [keep]
  split
  · exact Nat.zero_le _
  · simp [weight]

/-- There is a separator between two segments. -/
theorem weight_segments (sep : α) (s : List α) : weight (segments sep s) ≤ s.length+1 := by
  -- on the length: the first separator leaves a shorter rest
  induction hn : s.length using Nat.strong_induction_on generalizing s with
  | _ n ih =>
    by_cases hs : sep ∈ s
    · obtain ⟨t,rest,rfl,ht⟩ := List.eq_append_cons_of_mem hs
      rw [List.length_append, List.length_cons] at hn
      have hrest := ih rest.length (by omega) rest rfl
      have hfirst := weight_keep t
      have happ : weight (keep t++segments sep rest) =
          weight (keep t)+weight (segments sep rest) := by
        simp [weight]
      rw [segments_clean_append sep t rest ht, happ]
      omega
    · rw [segments_clean sep s hs, ← hn]
      exact weight_keep s

end Duda.Segments
