import AScript.Stdlib.SemverInterval

namespace AScript.Stdlib.Semver

open AScript.Lib

theorem Form.succeeds_or {f : Form} (hp : f.operand.WellFormed) :
    Succeeds (f.desugar true) ∨ f.desugar true = .error .overflow := by
  by_cases hf : Fits f.upper
  · obtain ⟨cs, hcs, -⟩ := Form.meaning hp hf true
    exact .inl ⟨cs, hcs⟩
  · exact .inr (Form.overflow hp hf)

theorem selects_flatten {forms : List Form} {sets : List CompSet}
    (h : List.Forall₂ (fun f cs => Selects cs f.interval) forms sets) :
    Selects sets.flatten (Clause.all forms).interval := by
  induction h with
  | nil => exact fun v => iff_of_true rfl nofun
  | @cons f cs forms sets hcs _ ih =>
    intro v
    rw [List.flatten_cons, List.all_append, Bool.and_eq_true, hcs v, ih v]
    exact (List.forall_mem_cons (p := fun f : Form => v.rank ∈ f.interval)).symm

theorem forms_meaning {forms : List Form} (hp : ∀ f ∈ forms, f.operand.WellFormed)
    (hf : ∀ f ∈ forms, Fits f.upper) (checked : Bool) :
    ∃ sets, forms.mapM (Form.desugar checked) = .ok sets ∧
      ((∀ f ∈ forms, f.Pointed) → List.Forall₂ (fun f cs => Selects cs f.interval) forms sets) := by
  induction forms with
  | nil => exact ⟨[], rfl, fun _ => .nil⟩
  | cons f forms ih =>
    rw [List.forall_mem_cons] at hp hf
    obtain ⟨cs, hcs, hsel⟩ := Form.meaning hp.1 hf.1 checked
    obtain ⟨sets, hsets, hrest⟩ := ih hp.2 hf.2
    refine ⟨cs :: sets, ?_, fun hpt => ?_⟩
    · rw [List.mapM_cons, hcs, hsets]
      rfl
    · rw [List.forall_mem_cons] at hpt
      exact .cons (hsel hpt.1) (hrest hpt.2)

namespace Clause

variable {c : Clause}

theorem meaning (hc : c.WellFormed) (hf : c.Fits) (checked : Bool) :
    ∃ cs, c.desugar checked = .ok cs ∧ (c.Pointed → Selects cs c.interval) := by
  cases c with
  | hyphen low high =>
    obtain ⟨cs, hcs, hsel⟩ := hyphen_meaning low hc.2 hf checked
    exact ⟨cs, hcs, fun _ => hsel⟩
  | all forms =>
    obtain ⟨sets, hsets, hsel⟩ := forms_meaning hc.2 hf checked
    refine ⟨sets.flatten, ?_, fun hpt => selects_flatten (hsel hpt)⟩
    rw [desugar, hsets]
    rfl

theorem overflow (hc : c.WellFormed) (hf : ¬ c.Fits) : c.desugar true = .error .overflow := by
  cases c with
  | hyphen low high =>
    rw [Fits] at hf
    by_cases hfull : high.isFull = true
    · rw [if_pos hfull] at hf
      exact absurd (fun _ h => by cases h) hf
    · rw [if_neg hfull] at hf
      cases hu : high.next with
      | some t =>
        rw [hu] at hf
        exact (cut_hyphen low hc.2 (by simpa using hfull) hu).overflow hf
      | none =>
        rw [hu] at hf
        exact absurd (fun _ h => by cases h) hf
  | all forms =>
    have hfail : ¬ ∀ f ∈ forms, Succeeds (f.desugar true) := fun h => hf fun f hmem => by
      by_contra hfit
      exact not_succeeds_error (Form.overflow (hc.2 f hmem) hfit ▸ h f hmem)
    rw [desugar, mapM_error (fun f hmem => Form.succeeds_or (hc.2 f hmem)) hfail]
    rfl

theorem succeeds_or (hc : c.WellFormed) :
    Succeeds (c.desugar true) ∨ c.desugar true = .error .overflow := by
  by_cases hf : c.Fits
  · obtain ⟨cs, hcs, -⟩ := meaning hc hf true
    exact .inl ⟨cs, hcs⟩
  · exact .inr (overflow hc hf)

end Clause

theorem overflow_iff (h : readRange input = .ok clauses) :
    parseRange true input ≠ .error .overflow ↔ ∀ c ∈ clauses, c.Fits := by
  rw [parseRange_eq true h]
  have hwf : ∀ c ∈ clauses, c.WellFormed := fun c hc => readRange_wellFormed h hc
  constructor
  · intro hno c hc
    by_contra hfit
    refine hno ?_
    rw [mapM_error (fun c hc => Clause.succeeds_or (hwf c hc)) fun hall =>
      not_succeeds_error (Clause.overflow (hwf c hc) hfit ▸ hall c hc)]
    rfl
  · intro hfits
    obtain ⟨sets, hsets⟩ := succeeds_mapM.mpr fun c hc => by
      obtain ⟨cs, hcs, -⟩ := Clause.meaning (hwf c hc) (hfits c hc) true
      exact (⟨cs, hcs⟩ : Succeeds (c.desugar true))
    rw [hsets]
    exact nofun

def Allowed (cs : CompSet) (v : Version) : Prop :=
  v.isPrerelease = true → ∃ k ∈ cs, k.bound.isPrerelease = true ∧ k.bound.core = v.core

theorem setMatches_iff (v : Version) (cs : CompSet) :
    setMatches v cs = true ↔ cs.all (·.rawMatches v) = true ∧ Allowed cs v := by
  rw [setMatches, Allowed]
  cases cs.all (·.rawMatches v) <;> cases v.isPrerelease <;> simp

/-- What a range that is read as these clauses should do. -/
structure Meant (input : Text) (clauses : List Clause) : Prop where
  total : parseRange true input ≠ .error .overflow
  selects : ∀ checked range, parseRange checked input = .ok range → ∀ v,
    satisfies v range = true ↔ ∃ c ∈ clauses, ∃ cs, c.desugar checked = .ok cs ∧
      v.rank ∈ c.interval ∧ Allowed cs v

theorem parseRange_sets (h : readRange input = .ok clauses)
    (hr : parseRange checked input = .ok range) :
    clauses.mapM (Clause.desugar checked) = .ok range.sets := by
  rw [parseRange_eq checked h] at hr
  obtain ⟨sets, hsets, rfl⟩ := map_ok hr
  exact hsets

theorem satisfies_iff (h : readRange input = .ok clauses)
    (hr : parseRange checked input = .ok range) (v : Version) :
    satisfies v range = true ↔ ∃ c ∈ clauses, ∃ cs, c.desugar checked = .ok cs ∧
      cs.all (·.rawMatches v) = true ∧ Allowed cs v := by
  rw [satisfies, List.any_eq_true]
  simp only [mapM_mem_iff (parseRange_sets h hr), setMatches_iff]
  exact ⟨fun ⟨cs, ⟨c, hc, hcs⟩, hm⟩ => ⟨c, hc, cs, hcs, hm⟩,
    fun ⟨c, hc, cs, hcs, hm⟩ => ⟨cs, ⟨c, hc, hcs⟩, hm⟩⟩

theorem meant (h : readRange input = .ok clauses) (hgood : ∀ c ∈ clauses, c.Fits ∧ c.Pointed) :
    Meant input clauses where
  total := (overflow_iff h).mpr fun c hc => (hgood c hc).1
  selects checked range hr v := by
    rw [satisfies_iff h hr]
    refine exists_congr fun c => and_congr_right fun hc => exists_congr fun cs =>
      and_congr_right fun hcs => and_congr_left' ?_
    obtain ⟨cs', hcs', hsel⟩ := Clause.meaning (readRange_wellFormed h hc) (hgood c hc).1 checked
    obtain rfl := Except.ok.inj (hcs.symm.trans hcs')
    exact hsel (hgood c hc).2 v

def probe (p : Partial) : Version :=
  match p.major, p.minor with
  | some a, some b => ver a b 1
  | some a, none => ver a 0 1
  | none, _ => ver 0 0 1

end AScript.Stdlib.Semver
