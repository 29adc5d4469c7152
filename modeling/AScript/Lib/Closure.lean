import Mathlib.Data.List.Basic
import Mathlib.Tactic.Common

universe u

namespace AScript.Lib.Closure

variable {α : Type u}

def Closed (keys : List α) (edges : α → List α) (S : α → Prop) : Prop :=
  ∀ n, S n → n ∈ keys → ∀ x ∈ edges n, S x

variable [DecidableEq α] (keys : List α) (edges : α → List α)

theorem length_unseen_lt {keys seen : List α} (hk : n ∈ keys) (hn : n ∉ seen) :
    (keys.filter (· ∉ n :: seen)).length < (keys.filter (· ∉ seen)).length := by
  rw [show keys.filter (· ∉ n :: seen) = (keys.filter (· ∉ seen)).filter (· ≠ n) by
    rw [List.filter_filter]
    refine List.filter_congr fun k _ => ?_
    simp [not_or]]
  refine List.length_filter_lt_length_iff_exists.mpr ⟨n, ?_, by simp⟩
  exact List.mem_filter.mpr ⟨hk, decide_eq_true hn⟩

theorem unseen_eq {keys seen : List α} (hk : n ∉ keys) :
    keys.filter (· ∉ n :: seen) = keys.filter (· ∉ seen) := by
  refine List.filter_congr fun k hmem => ?_
  have hne : k ≠ n := fun h => hk (h ▸ hmem)
  simp [hne]

def visit (seen : List α) : List α → List α
  | [] => seen
  | n :: work =>
    if n ∈ seen then visit seen work
    else if n ∈ keys then
      visit (n :: seen) (((edges n).filter (· ∉ n :: seen)).reverse ++ work)
    else visit (n :: seen) work
termination_by work => ((keys.filter (· ∉ seen)).length, work.length)
decreasing_by
  · exact Prod.Lex.right _ (Nat.lt_succ_self _)
  · exact Prod.Lex.left _ _ (length_unseen_lt ‹_› ‹_›)
  · rw [unseen_eq ‹_›]
    exact Prod.Lex.right _ (Nat.lt_succ_self _)

variable {keys edges}

theorem visit_subset {S : α → Prop} {seen work : List α} (hc : Closed keys edges S)
    (hs : ∀ x ∈ seen, S x) (hw : ∀ x ∈ work, S x) : ∀ x ∈ visit keys edges seen work, S x := by
  induction seen, work using visit.induct keys edges with
  | case1 seen =>
    rw [visit]
    exact hs
  | case2 seen n work hn ih =>
    rw [visit, if_pos hn]
    exact ih hs fun x hx => hw x (.tail _ hx)
  | case3 seen n work hn hk ih =>
    rw [visit, if_neg hn, if_pos hk]
    have hSn := hw n (.head _)
    refine ih (List.forall_mem_cons.mpr ⟨hSn, hs⟩) fun x hx => ?_
    rcases List.mem_append.mp hx with hx | hx
    · exact hc n hSn hk x (List.mem_filter.mp (List.mem_reverse.mp hx)).1
    · exact hw x (.tail _ hx)
  | case4 seen n work hn hk ih =>
    rw [visit, if_neg hn, if_neg hk]
    exact ih (List.forall_mem_cons.mpr ⟨hw n (.head _), hs⟩) fun x hx => hw x (.tail _ hx)

def Pending (keys : List α) (edges : α → List α) (seen work : List α) : Prop :=
  ∀ n ∈ seen, n ∈ keys → ∀ x ∈ edges n, x ∈ seen ∨ x ∈ work

theorem visit_closed {seen work : List α} (hp : Pending keys edges seen work) :
    (∀ x, x ∈ seen ∨ x ∈ work → x ∈ visit keys edges seen work) ∧
      Closed keys edges (· ∈ visit keys edges seen work) := by
  induction seen, work using visit.induct keys edges with
  | case1 seen =>
    rw [visit]
    exact ⟨fun x hx => hx.resolve_right List.not_mem_nil,
      fun n hn hk x hx => (hp n hn hk x hx).resolve_right List.not_mem_nil⟩
  | case2 seen n work hn ih =>
    rw [visit, if_pos hn]
    have hskip : ∀ x, x ∈ seen ∨ x ∈ n :: work → x ∈ seen ∨ x ∈ work := by
      rintro x (hx | hx)
      · exact .inl hx
      · rcases List.mem_cons.mp hx with rfl | hx
        · exact .inl hn
        · exact .inr hx
    obtain ⟨hsub, hclosed⟩ := ih fun m hm hk x hx => hskip x (hp m hm hk x hx)
    exact ⟨fun x hx => hsub x (hskip x hx), hclosed⟩
  | case3 seen n work hn hk ih =>
    rw [visit, if_neg hn, if_pos hk]
    generalize hpush : ((edges n).filter (· ∉ n :: seen)).reverse = push at ih ⊢
    have hmove : ∀ x, x ∈ seen ∨ x ∈ n :: work → x ∈ n :: seen ∨ x ∈ push ++ work := by
      rintro x (hx | hx)
      · exact .inl (.tail _ hx)
      · rcases List.mem_cons.mp hx with rfl | hx
        · exact .inl (.head _)
        · exact .inr (List.mem_append_right _ hx)
    obtain ⟨hsub, hclosed⟩ := ih fun m hm hkm x hx => by
      rcases List.mem_cons.mp hm with rfl | hm
      · by_cases hx' : x ∈ m :: seen
        · exact .inl hx'
        · refine .inr (List.mem_append_left _ ?_)
          rw [← hpush, List.mem_reverse]
          exact List.mem_filter.mpr ⟨hx, decide_eq_true hx'⟩
      · exact hmove x (hp m hm hkm x hx)
    exact ⟨fun x hx => hsub x (hmove x hx), hclosed⟩
  | case4 seen n work hn hk ih =>
    rw [visit, if_neg hn, if_neg hk]
    have hmove : ∀ x, x ∈ seen ∨ x ∈ n :: work → x ∈ n :: seen ∨ x ∈ work := by
      rintro x (hx | hx)
      · exact .inl (.tail _ hx)
      · rcases List.mem_cons.mp hx with rfl | hx
        · exact .inl (.head _)
        · exact .inr hx
    obtain ⟨hsub, hclosed⟩ := ih fun m hm hkm x hx => by
      rcases List.mem_cons.mp hm with rfl | hm
      · exact absurd hkm hk
      · exact hmove x (hp m hm hkm x hx)
    exact ⟨fun x hx => hsub x (hmove x hx), hclosed⟩

theorem visit_least (roots : List α) : (∀ x ∈ roots, x ∈ visit keys edges [] roots) ∧
    Closed keys edges (· ∈ visit keys edges [] roots) ∧
      ∀ S : α → Prop, (∀ x ∈ roots, S x) → Closed keys edges S →
        ∀ x ∈ visit keys edges [] roots, S x := by
  have hstart : Pending keys edges [] roots := nofun
  obtain ⟨hsub, hclosed⟩ := visit_closed hstart
  exact ⟨fun x hx => hsub x (.inr hx), hclosed, fun S hr hc => visit_subset hc nofun hr⟩

end AScript.Lib.Closure
