import Mathlib.Data.List.Basic

namespace AScript.Lib.Csv

abbrev Text := List Char

def mark : Char := '\uFEFF'

def isSpecial (c : Char) : Bool := c = ',' || c = '"' || c = '\n' || c = '\r'

def Bare (f : Text) : Prop := ∀ c ∈ f, isSpecial c = false

instance (f : Text) : Decidable (Bare f) := List.decidableBAll _ f

def escape : Text → Text
  | [] => []
  | c :: f => if c = '"' then '"' :: '"' :: escape f else c :: escape f

def field (f : Text) : Text := if Bare f then f else '"' :: (escape f ++ ['"'])

def fields : List Text → Text
  | [] => []
  | f :: fs => field f ++ fs.flatMap fun g => ',' :: field g

def record (fs : List Text) : Text :=
  (if fields fs = [] then ['"', '"'] else fields fs) ++ ['\n']

def unclosed (f : Text) : Text := if Bare f then f else '"' :: escape f

/-- The last field is not ended before the comma or the newline after it. -/
def begun : List Text → Text
  | [] => []
  | [f] => unclosed f
  | f :: g :: fs => field f ++ ',' :: begun (g :: fs)

def text (done : List (List Text)) (pending : List Text) : Text :=
  done.flatMap record ++ begun pending

inductive Mode
  | start
  | field
  | bare
  | quoted
  | closed

structure Reader where
  mode : Mode
  field : Text
  record : List Text
  records : List (List Text)

namespace Reader

def isEnd (c : Char) : Bool := c = '\n' || c = '\r'

def pushField (s : Reader) : Reader := ⟨.field, [], s.record ++ [s.field], s.records⟩

def endRecord (s : Reader) : Reader := ⟨.start, [], [], s.records ++ [s.record ++ [s.field]]⟩

def pushChar (s : Reader) (mode : Mode) (c : Char) : Reader :=
  ⟨mode, s.field ++ [c], s.record, s.records⟩

def within (s : Reader) (c : Char) : Reader :=
  if c = ',' then s.pushField else if isEnd c then s.endRecord else s.pushChar .bare c

def opening (s : Reader) (c : Char) : Reader :=
  if c = '"' then ⟨.quoted, s.field, s.record, s.records⟩ else s.within c

def step (s : Reader) (c : Char) : Reader :=
  match s.mode with
  | .start => if isEnd c then s else s.opening c
  | .field => s.opening c
  | .bare => s.within c
  | .quoted =>
    if c = '"' then ⟨.closed, s.field, s.record, s.records⟩ else s.pushChar .quoted c
  | .closed => if c = '"' then s.pushChar .quoted c else s.within c

def finish (s : Reader) : List (List Text) :=
  match s.mode with
  | .start => s.records
  | _ => s.endRecord.records

def run (s : Reader) (t : Text) : Reader := t.foldl step s

theorem run_append (s : Reader) (t u : Text) : s.run (t ++ u) = (s.run t).run u :=
  List.foldl_append

theorem run_cons (s : Reader) (c : Char) (t : Text) : s.run (c :: t) = (s.step c).run t := rfl

end Reader

def skipMark : Text → Text
  | [] => []
  | c :: t => if c = mark then t else c :: t

def records (t : Text) : List (List Text) := (Reader.run ⟨.start, [], [], []⟩ t).finish

def read (t : Text) : List (List Text) := records (skipMark t)

open Csv.Reader

def Open (rs : List (List Text)) (row : List Text) (s : Reader) : Prop :=
  s.records = rs ∧ s.record ++ [s.field] = row ∧ s.mode ≠ .start ∧ s.mode ≠ .quoted

theorem Open.comma (h : Open rs row s) : s.step ',' = ⟨.field, [], row, rs⟩ := by
  obtain ⟨mode, f, record, records⟩ := s
  obtain ⟨rfl, rfl, hstart, hquoted⟩ := h
  cases mode with
  | start => exact absurd rfl hstart
  | quoted => exact absurd rfl hquoted
  | _ => rfl

theorem Open.newline (h : Open rs row s) : s.step '\n' = ⟨.start, [], [], rs ++ [row]⟩ := by
  obtain ⟨mode, f, record, records⟩ := s
  obtain ⟨rfl, rfl, hstart, hquoted⟩ := h
  cases mode with
  | start => exact absurd rfl hstart
  | quoted => exact absurd rfl hquoted
  | _ => rfl

theorem Open.finish (h : Open rs row s) : s.finish = rs ++ [row] := by
  obtain ⟨mode, f, record, records⟩ := s
  obtain ⟨rfl, rfl, hstart, -⟩ := h
  cases mode with
  | start => exact absurd rfl hstart
  | _ => rfl

theorem isSpecial_iff (c : Char) :
    isSpecial c = false ↔ c ≠ ',' ∧ c ≠ '"' ∧ isEnd c = false := by
  simp [isSpecial, isEnd, and_assoc]

theorem run_bare (g f : Text) (hf : Bare f) (row : List Text) (rs : List (List Text)) :
    run ⟨.bare, g, row, rs⟩ f = ⟨.bare, g ++ f, row, rs⟩ := by
  induction f generalizing g with
  | nil => rw [List.append_nil]; rfl
  | cons c f ih =>
    obtain ⟨hc, hf⟩ := List.forall_mem_cons.mp hf
    obtain ⟨hcomma, -, hend⟩ := (isSpecial_iff c).mp hc
    have hstep : step ⟨.bare, g, row, rs⟩ c = ⟨.bare, g ++ [c], row, rs⟩ := by
      simp [step, within, pushChar, hcomma, hend]
    rw [run_cons, hstep, ih (g ++ [c]) hf, List.append_assoc]
    rfl

theorem run_escape (g f : Text) (row : List Text) (rs : List (List Text)) :
    run ⟨.quoted, g, row, rs⟩ (escape f) = ⟨.quoted, g ++ f, row, rs⟩ := by
  induction f generalizing g with
  | nil => rw [List.append_nil]; rfl
  | cons c f ih =>
    rw [escape]
    split
    next hc =>
      subst hc
      have hstep : step (step ⟨.quoted, g, row, rs⟩ '"') '"' = ⟨.quoted, g ++ ['"'], row, rs⟩ := rfl
      rw [run_cons, run_cons, hstep, ih, List.append_assoc]
      rfl
    next hc =>
      have hstep : step ⟨.quoted, g, row, rs⟩ c = ⟨.quoted, g ++ [c], row, rs⟩ := by
        simp [step, pushChar, hc]
      rw [run_cons, hstep, ih, List.append_assoc]
      rfl

theorem run_field (f : Text) (row : List Text) (rs : List (List Text)) :
    Open rs (row ++ [f]) (run ⟨.field, [], row, rs⟩ (field f)) := by
  unfold field
  split
  next hf =>
    cases f with
    | nil => exact ⟨rfl, rfl, nofun, nofun⟩
    | cons c f =>
      obtain ⟨hc, hf⟩ := List.forall_mem_cons.mp hf
      obtain ⟨hcomma, hquote, hend⟩ := (isSpecial_iff c).mp hc
      have hstep : step ⟨.field, [], row, rs⟩ c = ⟨.bare, [c], row, rs⟩ := by
        simp [step, opening, within, pushChar, hcomma, hquote, hend]
      rw [run_cons, hstep, run_bare [c] f hf]
      exact ⟨rfl, rfl, nofun, nofun⟩
  next =>
    have hopen : step ⟨.field, [], row, rs⟩ '"' = ⟨.quoted, [], row, rs⟩ := rfl
    rw [run_cons, hopen, run_append, run_escape]
    exact ⟨rfl, rfl, nofun, nofun⟩

theorem Open.run_fields (h : Open rs row s) (fs : List Text) :
    Open rs (row ++ fs) (s.run (fs.flatMap fun g => ',' :: field g)) := by
  induction fs generalizing s row with
  | nil =>
    rw [List.append_nil]
    exact h
  | cons f fs ih =>
    rw [List.flatMap_cons, run_append, run_cons, h.comma, List.append_cons]
    exact ih (run_field f row rs)

theorem field_head {f : Text} (h : field f = c :: t) : isEnd c = false := by
  unfold field at h
  split at h
  next hf => exact ((isSpecial_iff c).mp (hf c (h ▸ List.mem_cons_self))).2.2
  next =>
    obtain rfl := (List.cons.inj h).1
    rfl

theorem fields_head {fs : List Text} (h : fields fs = c :: t) : isEnd c = false := by
  cases fs with
  | nil => cases h
  | cons f fs =>
    rw [fields] at h
    cases hf : field f with
    | cons d u =>
      rw [hf] at h
      obtain rfl := (List.cons.inj h).1
      exact field_head hf
    | nil =>
      cases fs with
      | nil =>
        rw [hf] at h
        cases h
      | cons g fs =>
        rw [hf] at h
        obtain rfl := (List.cons.inj h).1
        rfl

theorem run_start (hfs : fields fs ≠ []) (rs : List (List Text)) :
    Open rs fs (run ⟨.start, [], [], rs⟩ (fields fs)) := by
  have hsame : run ⟨.start, [], [], rs⟩ (fields fs) = run ⟨.field, [], [], rs⟩ (fields fs) := by
    obtain ⟨c, t, ht⟩ := List.exists_cons_of_ne_nil hfs
    have hstep : step ⟨.start, [], [], rs⟩ c = step ⟨.field, [], [], rs⟩ c := by
      simp [step, fields_head ht, opening, within, pushField, pushChar]
    rw [ht, run_cons, run_cons, hstep]
  rw [hsame]
  cases fs with
  | nil => exact absurd rfl hfs
  | cons f fs =>
    rw [fields, run_append]
    exact (run_field f [] rs).run_fields fs

theorem run_begun (f : Text) (fs : List Text) (row : List Text) (rs : List (List Text)) :
    (run ⟨.field, [], row, rs⟩ (begun (f :: fs))).finish = rs ++ [row ++ f :: fs] := by
  induction fs generalizing f row with
  | nil =>
    rw [begun, unclosed]
    split
    next hf =>
      have hopen := run_field f row rs
      rw [field, if_pos hf] at hopen
      exact hopen.finish
    next =>
      have hquote : step ⟨.field, [], row, rs⟩ '"' = ⟨.quoted, [], row, rs⟩ := rfl
      rw [run_cons, hquote, run_escape]
      rfl
  | cons g fs ih =>
    rw [begun, run_append, run_cons, (run_field f row rs).comma, ih, List.append_assoc]
    rfl

theorem begun_head {fs : List Text} (h : begun fs = c :: t) : isEnd c = false := by
  match fs with
  | [] => cases h
  | [f] =>
    rw [begun, unclosed] at h
    split at h
    next hf => exact ((isSpecial_iff c).mp (hf c (h ▸ List.mem_cons_self))).2.2
    next =>
      obtain rfl := (List.cons.inj h).1
      rfl
  | f :: g :: fs =>
    rw [begun] at h
    cases hf : field f with
    | cons d u =>
      rw [hf] at h
      obtain rfl := (List.cons.inj h).1
      exact field_head hf
    | nil =>
      rw [hf] at h
      obtain rfl := (List.cons.inj h).1
      rfl

theorem finish_begun (hfs : begun fs ≠ []) (rs : List (List Text)) :
    (run ⟨.start, [], [], rs⟩ (begun fs)).finish = rs ++ [fs] := by
  obtain ⟨c, t, ht⟩ := List.exists_cons_of_ne_nil hfs
  have hstep : step ⟨.start, [], [], rs⟩ c = step ⟨.field, [], [], rs⟩ c := by
    simp [step, begun_head ht, opening, within, pushField, pushChar]
  rw [ht, run_cons, hstep, ← run_cons, ← ht]
  cases fs with
  | nil => exact absurd rfl hfs
  | cons f fs => exact run_begun f fs [] rs

theorem field_eq_nil : field f = [] ↔ f = [] := by
  unfold field
  split
  next => rfl
  next hf => exact ⟨nofun, fun h => absurd (h ▸ nofun) hf⟩

theorem fields_eq_nil : fields fs = [] ↔ fs = [] ∨ fs = [[]] := by
  cases fs with
  | nil => simp [fields]
  | cons f fs => cases fs <;> simp [fields, field_eq_nil]

theorem begun_eq_nil : begun fs = [] ↔ fields fs = [] := by
  match fs with
  | [] => exact Iff.rfl
  | [f] =>
    rw [fields_eq_nil, begun, unclosed]
    split
    next => simp
    next hf =>
      have hne : f ≠ [] := by rintro rfl; exact hf nofun
      simp [hne]
  | f :: g :: fs => simp [begun, fields_eq_nil]

def shown (fs : List Text) : List Text := if fs = [] then [[]] else fs

theorem run_record (fs : List Text) (rs : List (List Text)) :
    run ⟨.start, [], [], rs⟩ (record fs) = ⟨.start, [], [], rs ++ [shown fs]⟩ := by
  rw [record, run_append]
  by_cases hfs : fields fs = []
  · have hshown : shown fs = [[]] := by
      rcases fields_eq_nil.mp hfs with rfl | rfl <;> rfl
    rw [if_pos hfs, hshown]
    rfl
  · have hshown : shown fs = fs := if_neg fun h => hfs (fields_eq_nil.mpr (.inl h))
    rw [if_neg hfs, run_cons, (run_start hfs rs).newline, hshown]
    rfl

theorem run_flatMap_record (done : List (List Text)) (rs : List (List Text)) :
    run ⟨.start, [], [], rs⟩ (done.flatMap record) = ⟨.start, [], [], rs ++ done.map shown⟩ := by
  induction done generalizing rs with
  | nil => rw [List.map_nil, List.append_nil]; rfl
  | cons fs done ih =>
    rw [List.flatMap_cons, run_append, run_record, ih, List.map_cons, List.append_assoc]
    rfl

def leftover (pending : List Text) : List (List Text) :=
  if fields pending = [] then [] else [pending]

theorem records_text (done : List (List Text)) (pending : List Text) :
    records (text done pending) = done.map shown ++ leftover pending := by
  rw [records, text, run_append, run_flatMap_record, List.nil_append, leftover]
  split
  next h => rw [begun_eq_nil.mpr h, List.append_nil]; rfl
  next h => exact finish_begun (fun hb => h (begun_eq_nil.mp hb)) _

theorem read_of_ne_mark (h : t.head? ≠ some mark) : read t = records t := by
  cases t with
  | nil => rfl
  | cons c t => rw [read, skipMark, if_neg fun hc => h (congrArg some hc)]

theorem read_text_mark (f : Text) (hf : Bare f) (fs : List Text) (done : List (List Text))
    (pending : List Text) : read (text (((mark :: f) :: fs) :: done) pending) =
      (if fields (f :: fs) = [] then [] else [f :: fs]) ++ done.map shown ++ leftover pending := by
  have hmark : Bare (mark :: f) := List.forall_mem_cons.mpr ⟨by decide, hf⟩
  have hfield : field (mark :: f) = mark :: field f := by rw [field, if_pos hmark, field, if_pos hf]
  have hfields : fields ((mark :: f) :: fs) = mark :: fields (f :: fs) := by
    rw [fields, fields, hfield, List.cons_append]
  have htext : read (text (((mark :: f) :: fs) :: done) pending) =
      records (fields (f :: fs) ++ '\n' :: text done pending) := by
    rw [text, List.flatMap_cons, record, hfields, if_neg (List.cons_ne_nil _ _)]
    simp [read, skipMark, text]
  rw [htext]
  by_cases h : fields (f :: fs) = []
  · rw [h, if_pos rfl, List.nil_append, List.nil_append, ← records_text]
    rfl
  · have hrecord :
        fields (f :: fs) ++ '\n' :: text done pending = text ((f :: fs) :: done) pending := by
      simp [text, record, h]
    rw [hrecord, records_text, if_neg h]
    rfl

structure Progress where
  width : Option Nat
  done : List (List Text)
  pending : List Text

namespace Progress

def new : Progress := ⟨none, [], []⟩

def write (p : Progress) (fs : List Text) : Bool × Progress :=
  let row := p.pending ++ fs
  match p.width with
  | none => (true, ⟨some row.length, p.done ++ [row], []⟩)
  | some n =>
    if row.length = n then (true, ⟨some n, p.done ++ [row], []⟩) else (false, ⟨some n, p.done, row⟩)

def writes (p : Progress) (rows : List (List Text)) : Progress :=
  rows.foldl (fun p fs => (p.write fs).2) p

def shows (p : Progress) : List (List Text) := p.done.map shown ++ leftover p.pending

theorem writes_cons (p : Progress) (fs : List Text) (rows : List (List Text)) :
    p.writes (fs :: rows) = (p.write fs).2.writes rows := rfl

theorem write_first (fs : List Text) : new.write fs = (true, ⟨some fs.length, [fs], []⟩) := rfl

theorem write_some (n : Nat) (done : List (List Text)) (pending fs : List Text) :
    (write ⟨some n, done, pending⟩ fs).2 = if (pending ++ fs).length = n then
      ⟨some n, done ++ [pending ++ fs], []⟩ else ⟨some n, done, pending ++ fs⟩ := by
  unfold write
  simp only
  split <;> rfl

theorem done_writes (n : Nat) (done : List (List Text)) (pending : List Text)
    (rows : List (List Text)) :
    ∃ more, (writes ⟨some n, done, pending⟩ rows).done = done ++ more := by
  induction rows generalizing done pending with
  | nil => exact ⟨[], (List.append_nil done).symm⟩
  | cons fs rows ih =>
    rw [writes_cons, write_some]
    split
    · obtain ⟨more, hmore⟩ := ih (done ++ [pending ++ fs]) []
      exact ⟨(pending ++ fs) :: more, by rw [hmore, List.append_assoc]; rfl⟩
    · exact ih done (pending ++ fs)

@[simp] theorem leftover_nil : leftover [] = [] := rfl

theorem length_leftover (pending : List Text) : (leftover pending).length ≤ 1 := by
  unfold leftover
  split <;> simp

theorem length_shows_le (n : Nat) (done : List (List Text)) (pending : List Text)
    (hrows : rows ≠ []) :
    (writes ⟨some n, done, pending⟩ rows).shows.length ≤ done.length + rows.length := by
  induction rows generalizing done pending with
  | nil => exact absurd rfl hrows
  | cons fs rows ih =>
    rw [writes_cons, write_some]
    cases rows with
    | nil =>
      have := length_leftover (pending ++ fs)
      split
      next =>
        simp [writes, shows]
      next =>
        simp only [writes, shows, List.foldl_nil, List.length_append, List.length_map,
          List.length_singleton]
        omega
    | cons gs rows =>
      split
      · have := ih (done ++ [pending ++ fs]) [] (List.cons_ne_nil _ _)
        simp only [List.length_append, List.length_cons, List.length_nil] at this ⊢
        omega
      · have := ih done (pending ++ fs) (List.cons_ne_nil _ _)
        simp only [List.length_cons] at this ⊢
        omega

end Progress

def Even (n : Nat) : List (List Text) → Prop
  | [] => True
  | [fs] => fs.length = n ∨ fields fs ≠ []
  | fs :: rows => fs.length = n ∧ Even n rows

namespace Progress

theorem shows_even {n : Nat} (hn : n ≠ 0) (done : List (List Text)) (h : Even n rows) :
    (writes ⟨some n, done, []⟩ rows).shows = done.map shown ++ rows := by
  have hshown {fs : List Text} (hfs : fs.length = n) : shown fs = fs :=
    if_neg fun hnil => hn (by rw [← hfs, hnil]; rfl)
  induction rows generalizing done with
  | nil => simp [writes, shows]
  | cons fs rows ih =>
    rw [writes_cons, write_some, List.nil_append]
    cases rows with
    | nil =>
      by_cases hfs : fs.length = n
      · simp [hfs, hshown hfs, writes, shows]
      · simp [hfs, h.resolve_left hfs, writes, shows, leftover]
    | cons gs rows =>
      rw [if_pos h.1, ih _ h.2, List.map_append, List.append_assoc, List.map_singleton, hshown h.1]
      rfl

theorem even_of_length (n : Nat) (done : List (List Text))
    (h : done.length + rows.length ≤ (writes ⟨some n, done, []⟩ rows).shows.length) :
    Even n rows := by
  induction rows generalizing done with
  | nil => trivial
  | cons fs rows ih =>
    rw [writes_cons, write_some, List.nil_append] at h
    cases rows with
    | nil =>
      by_cases hfs : fs.length = n
      · exact .inl hfs
      · refine .inr fun hnil => ?_
        simp only [writes, shows, List.foldl_nil, hfs, leftover, hnil, List.length_append,
          List.length_map, List.length_singleton, if_true, if_false, List.length_nil] at h
        omega
    | cons gs rows =>
      by_cases hfs : fs.length = n
      · rw [if_pos hfs] at h
        refine ⟨hfs, ih (done ++ [fs]) ?_⟩
        simpa [Nat.add_assoc, Nat.add_comm 1] using h
      · rw [if_neg hfs] at h
        have := length_shows_le n done fs (List.cons_ne_nil gs rows)
        simp only [List.length_cons] at h this
        omega

end Progress

/-- What a library of CSV does. Its writer ends lines with a newline and takes no records of
different lengths, and its reader takes them. -/
structure Codec where
  Writer : Type
  new : Writer
  write : Writer → List Text → Bool × Writer
  finish : Writer → Except String Text
  parse : Text → Except String (List (List Text))
  progress : Writer → Progress
  progress_new : progress new = .new
  write_eq (w fs) : (write w fs).1 = ((progress w).write fs).1 ∧
    progress (write w fs).2 = ((progress w).write fs).2
  finish_eq (w) : finish w = .ok (text (progress w).done (progress w).pending)
  parse_text (done pending) : parse (text done pending) = .ok (read (text done pending))

/-- The writer that is nothing but how far it is. -/
def Codec.plain : Codec where
  Writer := Progress
  new := .new
  write := Progress.write
  finish p := .ok (text p.done p.pending)
  parse t := .ok (read t)
  progress := id
  progress_new := rfl
  write_eq _ _ := ⟨rfl, rfl⟩
  finish_eq _ := rfl
  parse_text _ _ := rfl

end AScript.Lib.Csv
