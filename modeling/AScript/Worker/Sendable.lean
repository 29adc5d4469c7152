import AScript.Worker.Clone

namespace AScript.Worker

open AScript.Lib AScript.Runtime

variable {D A : Type} {x : Ext D} {h : Heap D A} {root : Val D A}

section Gate

def Fine (h : Heap D A) (seen : List A) (v : Val D A) : Prop :=
  unsendableKind v = none ∧ ∀ a, container? v = some a → a ∈ seen ∨ (h a).values = []

structure Walk (h : Heap D A) (vs : List (Val D A)) (seen seen' : List A) : Prop where
  sub : seen ⊆ seen'
  fine : ∀ v ∈ vs, Fine h seen' v
  closed : ∀ a ∈ seen', a ∈ seen ∨ ∀ w ∈ (h a).values, Fine h seen' w

theorem Fine.mono (hf : Fine h seen v) (hs : seen ⊆ seen') : Fine h seen' v :=
  ⟨hf.1, fun a ha => (hf.2 a ha).imp_left (@hs a)⟩

namespace Walk

theorem refl (hf : ∀ v ∈ vs, Fine h seen v) : Walk h vs seen seen :=
  ⟨List.Subset.refl _, hf, fun _ ha => .inl ha⟩

theorem trans (h₁ : Walk h vs seen seen') (h₂ : Walk h ws seen' seen'') :
    Walk h (vs ++ ws) seen seen'' where
  sub := fun a ha => h₂.sub (h₁.sub ha)
  fine v hv := by
    obtain hv | hv := List.mem_append.mp hv
    · exact (h₁.fine v hv).mono h₂.sub
    · exact h₂.fine v hv
  closed a ha := by
    obtain ha | hw := h₂.closed a ha
    · exact (h₁.closed a ha).imp_right fun hw w hv => (hw w hv).mono h₂.sub
    · exact .inr hw

theorem enter (hc : container? v = some a) (hv : unsendableKind v = none)
    (hw : Walk h (h a).values (a :: seen) seen') : Walk h [v] seen seen' where
  sub := fun b hb => hw.sub (List.mem_cons_of_mem _ hb)
  fine w hm := by
    cases List.mem_singleton.mp hm
    refine ⟨hv, fun b hb => .inl ?_⟩
    cases hc.symm.trans hb
    exact hw.sub List.mem_cons_self
  closed b hb := by
    obtain hb | hf := hw.closed b hb
    · obtain rfl | hb := List.mem_cons.mp hb
      · exact .inr hw.fine
      · exact .inl hb
    · exact .inr hf

end Walk

theorem items_snd (label : String) (vs : List (Val D A)) : (items label vs).map Prod.snd = vs := by
  simp [items, Function.comp_def]

theorem children_values {c : Cell D A} (hc : children x c = some kids) :
    kids.map Prod.snd = c.values := by
  cases c <;> cases hc <;>
    simp [items_snd, Cell.values, IndexMap.values, Function.comp_def]

theorem children_none {c : Cell D A} (hc : children x c = none) : c.values = [] := by
  cases c <;> first | rfl | cases hc

theorem payloadChildren_values {c : Cell D A} (hc : (payloadTag c).isSome) :
    (payloadChildren x c).map Prod.snd = c.values := by
  cases c with
  | array vs => exact items_snd _ vs
  | object m => simp [payloadChildren, Cell.values, IndexMap.values, Function.comp_def]
  | _ => cases hc

theorem checkAll_walk {check : String → Val D A → List A → Except (Option SendError) (List A)}
    (hc : ∀ k ∈ kids, ∀ p seen seen', check p k.2 seen = .ok seen' → Walk h [k.2] seen seen')
    (hok : checkAll check path kids seen = .ok seen') :
    Walk h (kids.map Prod.snd) seen seen' := by
  induction kids generalizing seen with
  | nil =>
    cases hok
    exact .refl (by simp)
  | cons k kids ih =>
    obtain ⟨place, v⟩ := k
    rw [checkAll] at hok
    cases hv : check (path ++ place) v seen with
    | error err =>
      rw [hv] at hok
      cases hok
    | ok seen₁ =>
      rw [hv] at hok
      exact (hc _ List.mem_cons_self _ _ _ hv).trans
        (ih (fun k hk => hc k (List.mem_cons_of_mem _ hk)) hok)

theorem ProperVal.scalar (hp : ProperVal x h
    (.other (.variant enumName name value p ctor hasDef))) :
    IsScalar value := by
  cases p with
  | none => exact hp
  | some a =>
    obtain ⟨rfl, -⟩ := hp
    trivial

variable [DecidableEq A]

theorem container_walk {check : String → Val D A → List A → Except (Option SendError) (List A)}
    (hc : container? v = some a) (hv : unsendableKind v = none)
    (hkids : kids.map Prod.snd = (h a).values)
    (hw : ∀ k ∈ kids, ∀ p seen seen', check p k.2 seen = .ok seen' → Walk h [k.2] seen seen')
    (hok : (if a ∈ seen then .ok seen else checkAll check path kids (a :: seen)) = .ok seen') :
    Walk h [v] seen seen' := by
  split at hok
  next ha =>
    cases hok
    refine .refl fun w hw => ?_
    cases List.mem_singleton.mp hw
    exact ⟨hv, fun b hb => by cases hc.symm.trans hb; exact .inl ha⟩
  next => exact .enter hc hv (hkids ▸ checkAll_walk hw hok)

theorem checkInner_scalar {v : Val D A} (hv : IsScalar v) :
    checkInner x h (n + 1) path v seen = .ok seen := by
  cases v <;> first | rfl | cases hv

theorem checkInner_cell : checkInner x h (n + 1) path (.other (.cell a)) seen =
    match children x (h a) with
    | none => .ok seen
    | some kids =>
      if a ∈ seen then .ok seen else checkAll (checkInner x h n) path kids (a :: seen) := rfl

theorem checkInner_variant {value : Val D A} (hv : IsScalar value) :
    checkInner x h (n + 2) path (.other (.variant enumName name value payload ctor hasDef)) seen =
    match payload with
    | none => .ok seen
    | some a =>
      if a ∈ seen then .ok seen
      else checkAll (checkInner x h (n + 1)) path (payloadChildren x (h a)) (a :: seen) := by
  rw [checkInner, checkInner_scalar hv]
  rfl

theorem checkInner_walk (hp : ∀ v, Occurs h root v → ProperVal x h v) (hv : Occurs h root v)
    (hok : checkInner x h n path v seen = .ok seen') : Walk h [v] seen seen' := by
  induction n generalizing path v seen seen' with
  | zero => cases hok
  | succ n ih =>
    have hleaf : unsendableKind v = none → container? v = none → Walk h [v] seen seen :=
      fun hk hc => .refl (by simpa [Fine, hc] using hk)
    match v, hok with
    | .other (.code c), hok => cases c <;> cases hok
    | .other (.cell a), hok =>
      rw [checkInner_cell] at hok
      cases hc : children x (h a) with
      | none =>
        rw [hc] at hok
        cases hok
        refine .refl fun w hw => ?_
        cases List.mem_singleton.mp hw
        exact ⟨rfl, fun b hb => by cases hb; exact .inr (children_none hc)⟩
      | some kids =>
        rw [hc] at hok
        exact container_walk rfl rfl (children_values hc)
          (fun k hk _ _ _ => ih (.inside hv rfl (children_values hc ▸ List.mem_map_of_mem hk))) hok
    | .other (.variant _ _ value payload _ _), hok =>
      have hproper := hp _ hv
      cases n with
      | zero => cases hok
      | succ n =>
        rw [checkInner_variant hproper.scalar] at hok
        cases payload with
        | none =>
          cases hok
          exact hleaf rfl rfl
        | some a =>
          have hvals := payloadChildren_values (x := x) hproper.2.2.2
          exact container_walk rfl rfl hvals
            (fun k hk _ _ _ => ih (.inside hv rfl (hvals ▸ List.mem_map_of_mem hk))) hok
    | .nil, hok | .bool b, hok | .int i, hok | .float g, hok | .decimal d, hok | .str t, hok
    | .other (.regex _), hok | .other (.shared _), hok =>
      cases hok
      exact hleaf rfl rfl

theorem no_code (hp : ∀ v, Occurs h root v → ProperVal x h v)
    (hok : checkInner x h n path root [] = .ok seen') (hv : Occurs h root v) :
    unsendableKind v = none := by
  have hw := checkInner_walk hp .root hok
  have hfine : Fine h seen' v := by
    induction hv with
    | root => exact hw.fine _ List.mem_cons_self
    | inside _ hc hm ih =>
      obtain ha | hnil := ih.2 _ hc
      · exact ((hw.closed _ ha).resolve_left List.not_mem_nil) _ hm
      · rw [hnil] at hm
        cases hm
  exact hfine.1

def Decides (check : List A → Except (Option SendError) (List A)) (seen : List A) : Prop :=
  check seen ≠ .error none ∧
    ∀ seen', check seen = .ok seen' → seen'.Nodup ∧ seen.length ≤ seen'.length

variable [Fintype A]

def Enough (n : Nat) (seen : List A) : Prop :=
  seen.Nodup ∧ Fintype.card A - seen.length + 2 ≤ n

omit [DecidableEq A] in
theorem checkAll_decides {check : String → Val D A → List A → Except (Option SendError) (List A)}
    (hc : ∀ k ∈ kids, ∀ p seen, Enough n seen → Decides (check p k.2) seen) (hs : Enough n seen) :
    Decides (checkAll check path kids) seen := by
  induction kids generalizing seen with
  | nil => exact ⟨nofun, fun seen' hok => by cases hok; exact ⟨hs.1, le_rfl⟩⟩
  | cons k kids ih =>
    obtain ⟨place, v⟩ := k
    obtain ⟨hne, hgrow⟩ := hc _ List.mem_cons_self (path ++ place) seen hs
    rw [Decides, checkAll]
    cases hv : check (path ++ place) v seen with
    | error err => exact ⟨fun herr => hne (hv.trans herr), nofun⟩
    | ok seen₁ =>
      obtain ⟨hd, hl⟩ := hgrow _ hv
      have hs₁ : Enough n seen₁ := ⟨hd, by have := hs.2; omega⟩
      obtain ⟨hne, hgrow⟩ := ih (fun k hk => hc k (List.mem_cons_of_mem _ hk)) hs₁
      exact ⟨hne, fun seen' hok => ⟨(hgrow _ hok).1, hl.trans (hgrow _ hok).2⟩⟩

theorem enter_decides (check : String → Val D A → List A → Except (Option SendError) (List A))
    (path : String) (kids : List (String × Val D A)) (a : A)
    (hc : ∀ k ∈ kids, ∀ p seen, Enough n seen → Decides (check p k.2) seen)
    (hs : Enough (n + 1) seen) :
    Decides (fun seen => if a ∈ seen then .ok seen else checkAll check path kids (a :: seen))
      seen := by
  by_cases ha : a ∈ seen
  · simp only [Decides, if_pos ha]
    exact ⟨nofun, fun seen' hok => by cases hok; exact ⟨hs.1, le_rfl⟩⟩
  · have hd : (a :: seen).Nodup := List.nodup_cons.mpr ⟨ha, hs.1⟩
    have hl := hd.length_le_card
    rw [List.length_cons] at hl
    have henter : Enough n (a :: seen) :=
      ⟨hd, by have := hs.2; rw [List.length_cons]; omega⟩
    obtain ⟨hne, hgrow⟩ : Decides (checkAll check path kids) (a :: seen) :=
      checkAll_decides hc henter
    simp only [Decides, if_neg ha]
    refine ⟨hne, fun seen' hok => ⟨(hgrow _ hok).1, ?_⟩⟩
    exact (Nat.le_succ _).trans (hgrow _ hok).2

theorem checkInner_decides (hp : ∀ v, Occurs h root v → ProperVal x h v) (hv : Occurs h root v)
    (hs : Enough n seen) : Decides (checkInner x h n path v) seen := by
  induction n generalizing path v seen with
  | zero => exact absurd hs.2 (by omega)
  | succ n ih =>
    have hleaf : checkInner x h (n + 1) path v seen = .ok seen →
        Decides (checkInner x h (n + 1) path v) seen :=
      fun hok => ⟨hok ▸ nofun, fun seen' hok' => by cases hok.symm.trans hok'; exact ⟨hs.1, le_rfl⟩⟩
    match v with
    | .other (.code c) => cases c <;> exact ⟨nofun, nofun⟩
    | .other (.cell a) =>
      cases hc : children x (h a) with
      | none => exact hleaf (by rw [checkInner_cell, hc])
      | some kids =>
        have henter := enter_decides (checkInner x h n) path kids a
          (fun k hk _ _ => ih (.inside hv rfl (children_values hc ▸ List.mem_map_of_mem hk))) hs
        rw [Decides] at henter ⊢
        rw [checkInner_cell, hc]
        exact henter
    | .other (.variant _ _ value payload _ _) =>
      have hproper := hp _ hv
      obtain ⟨n, rfl⟩ : ∃ k, n = k + 1 := ⟨n - 1, by have := hs.2; omega⟩
      cases payload with
      | none => exact hleaf (by rw [checkInner_variant hproper.scalar])
      | some a =>
        have hvals := payloadChildren_values (x := x) hproper.2.2.2
        have henter := enter_decides (checkInner x h (n + 1)) path (payloadChildren x (h a)) a
          (fun k hk _ _ => ih (.inside hv rfl (hvals ▸ List.mem_map_of_mem hk))) hs
        rw [Decides] at henter ⊢
        rw [checkInner_variant hproper.scalar]
        exact henter
    | .nil | .bool b | .int i | .float g | .decimal d | .str t | .other (.regex _)
    | .other (.shared _) => exact hleaf rfl

end Gate

section Total

theorem scalar_total [DecidableEq A] {v : Val D A} (hv : IsScalar v) (e : Enc A) :
    ∃ bs, encodeValue x h (n + 1) v e = some (bs, e) := by
  cases v <;> first | exact ⟨_, rfl⟩ | cases hv

def Total (enc : Encoder A α) (room : Enc A → Prop) (a : α) : Prop :=
  ∀ e, room e → ∃ bs e', enc a e = some (bs, e') ∧ e'.ids.Nodup ∧ e.ids.length ≤ e'.ids.length

theorem Total.after {enc : Encoder A α} {room : Enc A → Prop} (ht : Total enc room a) :
    Total (Encoder.after pre enc) room a := by
  intro e hr
  obtain ⟨bs, e', he, hd, hl⟩ := ht e hr
  exact ⟨pre ++ bs, e', by rw [Encoder.after, he]; rfl, hd, hl⟩

variable [Fintype A]

def Room (n k : Nat) (e : Enc A) : Prop :=
  e.ids.Nodup ∧ 2 * (Fintype.card A - e.ids.length) + k ≤ n

theorem Room.grow {e e' : Enc A} (hr : Room n k e) (hd : e'.ids.Nodup)
    (hl : e.ids.length ≤ e'.ids.length) : Room n k e' :=
  ⟨hd, by have := hr.2; omega⟩

theorem Total.all {enc : Encoder A α} (ht : ∀ a ∈ as, Total enc (Room n k) a) :
    Total enc.all (Room n k) as := by
  induction as with
  | nil => exact fun e hr => ⟨[], e, rfl, hr.1, le_rfl⟩
  | cons a as ih =>
    intro e hr
    obtain ⟨bs, e₁, he, hd, hl⟩ := ht a List.mem_cons_self e hr
    obtain ⟨cs, e₂, he', hd', hl'⟩ :=
      ih (fun a ha => ht a (List.mem_cons_of_mem _ ha)) e₁ (hr.grow hd hl)
    refine ⟨bs ++ cs, e₂, ?_, hd', hl.trans hl'⟩
    simp only [Encoder.all, he, he', Option.bind_eq_bind, Option.bind_some]
    rfl

theorem Room.enter {e : Enc A} (hr : Room (n + 1) 1 e) (ha : a ∉ e.ids) :
    Room n 2 ⟨e.ids ++ [a], e.shared⟩ := by
  have hd : (e.ids ++ [a]).Nodup := by
    simpa [List.nodup_append, hr.1] using fun b hb => ne_of_mem_of_not_mem hb ha
  have hl := hd.length_le_card
  have := hr.2
  rw [List.length_append, List.length_singleton] at hl
  exact ⟨hd, by rw [List.length_append, List.length_singleton]; omega⟩

variable [DecidableEq A]

theorem cell_total {id : Nat} {c : Cell D A}
    (hv : ∀ v ∈ c.values, Total (encodeValue x h (n + 1)) (Room m k) v) :
    Total (encodeCell (encodeValue x h (n + 1)) id) (Room m k) c := by
  cases c with
  | bytes raw => exact fun e hr => ⟨_, e, rfl, hr.1, le_rfl⟩
  | array vs => exact (Total.all hv).after
  | object m | «instance» _ m =>
    exact (Total.all fun e he => (hv e.2 (List.mem_map_of_mem he)).after).after
  | map m =>
    refine (Total.all fun (key, v) hq e hr => ?_).after
    obtain ⟨bs, hbs⟩ := scalar_total (x := x) (h := h) (n := n) (isScalar_toValue key) e
    obtain ⟨cs, e', he, hd, hl⟩ := (hv v (List.mem_map_of_mem hq)).after e hr
    refine ⟨cs, e', ?_, hd, hl⟩
    simp only [hbs, Option.bind_eq_bind, Option.bind_some]
    exact he
  | set m =>
    refine (Total.all fun q hq e hr => ?_).after
    obtain ⟨bs, hbs⟩ := scalar_total (x := x) (h := h) (n := n) (isScalar_toValue q.1) e
    exact ⟨bs, e, hbs, hr.1, le_rfl⟩

theorem value_total (hp : Proper x h root)
    (hcode : ∀ v, Occurs h root v → unsendableKind v = none) :
    (∀ v, Legit h root v → Total (encodeValue x h n) (Room n 2) v) ∧
      ∀ a, Reached h root a → Total (encodeValue x h n) (Room n 1) (.other (.cell a)) := by
  induction n with
  | zero => exact ⟨fun v _ e hr => absurd hr.2 (by omega), fun a _ e hr => absurd hr.2 (by omega)⟩
  | succ n ih =>
    have hcell : ∀ a, Reached h root a →
        Total (encodeValue x h (n + 1)) (Room (n + 1) 1) (.other (.cell a)) := by
      intro a ha e hr
      by_cases hm : a ∈ e.ids
      · exact ⟨_, e, by rw [encodeValue, Enc.intern, if_pos hm], hr.1, le_rfl⟩
      · have henter := hr.enter hm
        cases n with
        | zero => exact absurd henter.2 (by omega)
        | succ n =>
          have hvs : ∀ v ∈ (h a).values, Total (encodeValue x h (n + 1)) (Room (n + 1) 2) v :=
            fun v hv => ih.1 v (.inl (ha.values hv))
          obtain ⟨bs, e', he, hd, hl⟩ := cell_total hvs _ henter
          refine ⟨bs, e', by rw [encodeValue, Enc.intern, if_neg hm]; exact he, hd, ?_⟩
          rw [List.length_append] at hl
          exact (Nat.le_add_right _ _).trans hl
    refine ⟨fun v hv e hr => ?_, hcell⟩
    have hr1 : Room (n + 1) 1 e := ⟨hr.1, by have := hr.2; omega⟩
    obtain hv | ⟨a, rfl, ha⟩ := hv
    · have hproper := hp.value hv
      have hnocode := hcode v hv
      cases v with
      | other o =>
        cases o with
        | cell a => exact hcell a ⟨_, hv, rfl⟩ e hr1
        | code c => cases c <;> cases hnocode
        | regex => exact ⟨_, e, rfl, hr.1, le_rfl⟩
        | shared => exact ⟨_, _, rfl, hr.1, le_rfl⟩
        | variant enumName name value payload =>
          obtain ⟨n, rfl⟩ : ∃ k, n = k + 1 := ⟨n - 1, by have := hr.2; omega⟩
          cases payload with
          | none =>
            obtain ⟨bs, hbs⟩ := scalar_total (x := x) (h := h) (n := n) hproper e
            refine ⟨Tag.enum :: putStr enumName ++ putStr name ++ bs ++ [0], e, ?_, hr.1, le_rfl⟩
            rw [encodeValue, hbs]
            rfl
          | some a =>
            obtain ⟨rfl, -, -, htag⟩ := hproper
            obtain ⟨tag, htag⟩ := Option.isSome_iff_exists.mp htag
            have hroom : Room (n + 1) 1 e := ⟨hr.1, by have := hr.2; omega⟩
            obtain ⟨bs, e', he, hd, hl⟩ := (ih.2 a ⟨_, hv, rfl⟩).after e hroom
            refine ⟨bs, e', ?_, hd, hl⟩
            rw [encodeValue]
            simp only [encodeValue, htag, Option.bind_eq_bind, Option.bind_some]
            exact he
      | _ => exact ⟨_, e, rfl, hr.1, le_rfl⟩
    · exact hcell a ha e hr1

end Total

end AScript.Worker
