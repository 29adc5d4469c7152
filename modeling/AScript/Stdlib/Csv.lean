import AScript.Lib.Csv
import AScript.Lib.IndexMap
import AScript.Lib.Succeeds

/-! Arrays of rows as CSV, and CSV as rows (`stdlib/csv.rs`). -/

namespace AScript.Stdlib.Csv

open AScript.Lib AScript.Lib.Csv

/-- A row, of values or of the strings that are read. -/
inductive Row (V : Type)
  | array (items : List V)
  | object (entries : IndexMap Text V)
  | other

section Call

variable {V : Type} (c : Codec) (display : V → Text)

def cell (o : IndexMap Text V) (key : Text) : Text := ((o.get key).map display).getD []

def cells (header : List Text) (o : IndexMap Text V) : List Text := header.map (cell display o)

def writeObjects (header : List Text) (wtr : c.Writer) : List (Row V) → Except String c.Writer
  | [] => .ok wtr
  | .object o :: rows => writeObjects header (c.write wtr (cells display header o)).2 rows
  | _ :: _ => .error "csv.stringify: mixed row kinds (expected all objects)"

def writeArrays (wtr : c.Writer) : List (Row V) → Except String c.Writer
  | [] => .ok wtr
  | .array items :: rows => writeArrays (c.write wtr (items.map display)).2 rows
  | _ :: _ => .error "csv.stringify expects an array of arrays or an array of objects"

def intoInner (wtr : c.Writer) : Except String Text :=
  match c.finish wtr with
  | .ok t => .ok t
  | .error e => .error ("CSV write error: " ++ e)

/-- The text, or the message of the error beside it. -/
def stringify (rows : List (Row V)) : Except String Text :=
  match rows.head? with
  | some (.object o) =>
    let header := o.keys
    let (ok, wtr) := c.write c.new header
    if ok then writeObjects c display header wtr rows >>= intoInner c
    else .error "CSV write error"
  | _ => writeArrays c display c.new rows >>= intoInner c

def named (head row : List Text) : IndexMap Text Text :=
  .ofPairs (head.mapIdx fun i key => (key, (row[i]?).getD []))

def parse (header : Bool) (t : Text) : Except String (List (Row Text)) :=
  match c.parse t with
  | .error e => .error ("invalid CSV: " ++ e)
  | .ok records =>
    .ok (if header then
      match records with
      | [] => []
      | head :: rows => rows.map fun row => .object (named head row)
    else records.map .array)

end Call

variable {V : Type} (c : Codec) (display : V → Text)

theorem progress_writeArrays (wtr : c.Writer) (rows : List (List V)) :
    ∃ wtr', writeArrays c display wtr (rows.map .array) = .ok wtr' ∧
      c.progress wtr' = (c.progress wtr).writes (rows.map (·.map display)) := by
  induction rows generalizing wtr with
  | nil => exact ⟨wtr, rfl, rfl⟩
  | cons items rows ih =>
    obtain ⟨wtr', hok, hprogress⟩ := ih (c.write wtr (items.map display)).2
    rw [(c.write_eq wtr _).2] at hprogress
    exact ⟨wtr', hok, hprogress⟩

theorem progress_writeObjects (header : List Text) (wtr : c.Writer)
    (rows : List (IndexMap Text V)) :
    ∃ wtr', writeObjects c display header wtr (rows.map .object) = .ok wtr' ∧
      c.progress wtr' = (c.progress wtr).writes (rows.map (cells display header)) := by
  induction rows generalizing wtr with
  | nil => exact ⟨wtr, rfl, rfl⟩
  | cons o rows ih =>
    obtain ⟨wtr', hok, hprogress⟩ := ih (c.write wtr (cells display header o)).2
    rw [(c.write_eq wtr _).2] at hprogress
    exact ⟨wtr', hok, hprogress⟩

theorem intoInner_eq (wtr : c.Writer) : intoInner c wtr =
    .ok (text (c.progress wtr).done (c.progress wtr).pending) := by
  rw [intoInner, c.finish_eq]

def written (records : List (List Text)) : Text :=
  text (Progress.new.writes records).done (Progress.new.writes records).pending

theorem stringify_arrays (rows : List (List V)) :
    stringify c display (rows.map .array) = .ok (written (rows.map (·.map display))) := by
  obtain ⟨wtr, hok, hprogress⟩ := progress_writeArrays c display c.new rows
  have hhead : stringify c display (rows.map .array) =
      (writeArrays c display c.new (rows.map .array) >>= intoInner c) := by
    cases rows <;> rfl
  rw [c.progress_new] at hprogress
  rw [hhead, hok, written, ← hprogress]
  exact intoInner_eq c wtr

theorem stringify_objects (o : IndexMap Text V) (rows : List (IndexMap Text V)) :
    stringify c display ((o :: rows).map .object) =
      .ok (written (o.keys :: (o :: rows).map (cells display o.keys))) := by
  obtain ⟨hfirst, hsecond⟩ := c.write_eq c.new o.keys
  rw [c.progress_new, Progress.write_first] at hfirst hsecond
  obtain ⟨wtr, hok, hprogress⟩ :=
    progress_writeObjects c display o.keys (c.write c.new o.keys).2 (o :: rows)
  rw [hsecond] at hprogress
  rw [List.map_cons, stringify, List.head?_cons]
  simp only [hfirst, if_true]
  rw [← List.map_cons, hok, written, Progress.writes_cons, Progress.write_first, ← hprogress]
  exact intoInner_eq c wtr

/-- The text of a record does not begin with a byte order mark. -/
def Unmarked (first : List Text) : Prop := ∀ f fs, first = (mark :: f) :: fs → ¬ Bare f

theorem head_text (h : Unmarked fs) (rest : List (List Text)) (pending : List Text) :
    (text (fs :: rest) pending).head? ≠ some mark := by
  rw [text, List.flatMap_cons, record]
  by_cases hfs : fields fs = []
  · simp [hfs, mark]
  · rw [if_neg hfs]
    cases fs with
    | nil => exact absurd rfl hfs
    | cons f fs =>
      by_cases hf : Bare f
      · cases f with
        | nil =>
          cases fs with
          | nil => exact absurd rfl hfs
          | cons g fs => simp [fields, field, hf, mark]
        | cons d f =>
          simp only [fields, field, if_pos hf, List.cons_append, List.head?_cons, ne_eq,
            Option.some.injEq]
          rintro rfl
          exact h f fs rfl (List.forall_mem_cons.mp hf).2
      · simp [fields, field, hf, mark]

/-- The first record has a field and begins with no mark, and the others have its length. -/
def Regular : List (List Text) → Prop
  | [] => True
  | first :: rest => first ≠ [] ∧ Unmarked first ∧ Even first.length rest

theorem read_written (h : Unmarked first) (rest : List (List Text)) :
    read (written (first :: rest)) =
      ((Progress.mk (some first.length) [first] []).writes rest).shows := by
  obtain ⟨more, hmore⟩ := Progress.done_writes first.length [first] [] rest
  rw [written, Progress.writes_cons, Progress.write_first]
  simp only
  rw [hmore, List.singleton_append, read_of_ne_mark (head_text h more _), records_text,
    Progress.shows, hmore]
  rfl

theorem read_written_mark (hf : Bare f) (fs : List Text) (rest : List (List Text)) :
    read (written (((mark :: f) :: fs) :: rest)) =
      (if fields (f :: fs) = [] then [] else [f :: fs]) ++
      ((Progress.mk (some (fs.length + 1)) [(mark :: f) :: fs] []).writes rest).shows.tail := by
  obtain ⟨more, hmore⟩ := Progress.done_writes (fs.length + 1) [(mark :: f) :: fs] [] rest
  rw [written, Progress.writes_cons, Progress.write_first, List.length_cons]
  simp only
  rw [hmore, List.singleton_append, read_text_mark f hf, Progress.shows, hmore, List.append_assoc]
  rfl

theorem length_shows_first (n : Nat) (first : List Text) (rest : List (List Text)) :
    ((Progress.mk (some n) [first] []).writes rest).shows.length ≤ rest.length + 1 := by
  by_cases hrest : rest = []
  · subst hrest
    exact Nat.le_refl _
  · have := Progress.length_shows_le n [first] [] hrest
    rw [List.length_singleton] at this
    omega

theorem read_written_iff (records : List (List Text)) :
    read (written records) = records ↔ Regular records := by
  cases records with
  | nil => exact ⟨fun _ => trivial, fun _ => rfl⟩
  | cons first rest =>
    constructor
    · intro h
      have hunmarked : Unmarked first := by
        rintro f fs rfl hf
        rw [read_written_mark hf] at h
        split at h
        next =>
          have hlen := congrArg List.length h
          have := length_shows_first (fs.length + 1) ((mark :: f) :: fs) rest
          rw [List.nil_append, List.length_tail, List.length_cons] at hlen
          omega
        next =>
          have hhead := (List.cons.inj h).1
          exact List.cons_ne_self _ _ (List.cons.inj hhead).1.symm
      refine ⟨?_, hunmarked, ?_⟩ <;> rw [read_written hunmarked] at h
      · rintro rfl
        obtain ⟨more, hmore⟩ := Progress.done_writes 0 [[]] [] rest
        rw [Progress.shows, List.length_nil, hmore] at h
        cases (List.cons.inj h).1
      · refine Progress.even_of_length first.length [first] ?_
        rw [h, List.length_singleton, List.length_cons]
        omega
    · rintro ⟨hfirst, hunmarked, heven⟩
      have hlen : first.length ≠ 0 := fun h => hfirst (List.length_eq_zero_iff.mp h)
      rw [read_written hunmarked, Progress.shows_even hlen _ heven, List.map_singleton, shown,
        if_neg hfirst, List.singleton_append]

theorem parse_written (header : Bool) (records : List (List Text)) :
    parse c header (written records) = .ok (if header then
      match read (written records) with
      | [] => []
      | head :: rows => rows.map fun row => .object (named head row)
    else (read (written records)).map .array) := by
  rw [parse, written, c.parse_text]

/-- An object under the keys of the first: what it lacks is the empty string. -/
def restrict (first o : IndexMap Text V) : IndexMap Text Text :=
  ⟨first.keys.map fun key => (key, cell display o key), by
    rw [List.map_map]
    exact (List.map_id _).symm ▸ first.nodup⟩

theorem named_cells (first o : IndexMap Text V) :
    named first.keys (cells display first.keys o) = restrict display first o := by
  have hpairs : (first.keys.mapIdx fun i key => (key, ((cells display first.keys o)[i]?).getD [])) =
      (restrict display first o).entries := by
    refine List.ext_getElem (by simp [restrict]) fun i hi _ => ?_
    rw [List.length_mapIdx] at hi
    simp [restrict, cells, List.getElem?_eq_getElem hi]
  rw [named, hpairs, IndexMap.ofPairs_entries]

theorem mem_named (head row : List Text) (key : Text) :
    key ∈ (named head row).keys ↔ key ∈ head := by
  have hkeys : (head.mapIdx fun i key => (key, (row[i]?).getD [])).map Prod.fst = head := by
    refine List.ext_getElem (by simp) fun i _ _ => ?_
    simp
  rw [named, IndexMap.mem_keys_ofPairs, hkeys]

theorem even_cells (header : List Text) (rows : List (IndexMap Text V)) :
    Even header.length (rows.map (cells display header)) := by
  have hlen (o : IndexMap Text V) : (cells display header o).length = header.length :=
    List.length_map _
  induction rows with
  | nil => trivial
  | cons o rows ih =>
    cases rows with
    | nil => exact .inl (hlen o)
    | cons o' rows => exact ⟨hlen o, ih⟩

theorem arrays_iff (rows : List (List V)) :
    (∀ t, stringify c display (rows.map .array) = .ok t →
      parse c false t = .ok (rows.map fun items => .array (items.map display))) ↔
    Regular (rows.map (·.map display)) := by
  have hinj : Function.Injective (Row.array (V := Text)) := fun _ _ h => Row.array.inj h
  rw [stringify_arrays, ← read_written_iff]
  constructor
  · intro h
    have hparse := (parse_written c false _).symm.trans (h _ rfl)
    have hrows := Except.ok.inj hparse
    rw [if_neg Bool.false_ne_true] at hrows
    refine hinj.list_map ?_
    rw [hrows, List.map_map]
    rfl
  · rintro h t ⟨⟩
    rw [parse_written, if_neg Bool.false_ne_true, h, List.map_map]
    rfl

theorem header_of_named {o : IndexMap Text V} {rows : List (IndexMap Text V)}
    {records rows' : List (List Text)}
    (hread : read (written (o.keys :: records)) = head :: rows')
    (hrows : rows'.map (fun row => .object (named head row)) =
      (o :: rows).map fun o' => Row.object (restrict display o o'))
    (hlen : records.length = (o :: rows).length) : o.keys ≠ [] ∧ Unmarked o.keys := by
  have hcount : rows'.length = records.length := by
    have hmap := congrArg List.length hrows
    rwa [List.length_map, List.length_map, ← hlen] at hmap
  have hkeys (key) : key ∈ head ↔ key ∈ o.keys := by
    cases rows' with
    | nil => cases hrows
    | cons row rows' =>
      have hfirst := Row.object.inj (List.cons.inj hrows).1
      have hrestrict : (restrict display o o).keys = o.keys := by
        rw [restrict, IndexMap.keys, List.map_map]
        exact List.map_id _
      rw [← mem_named head row key, hfirst, hrestrict]
  constructor
  · intro hnil
    have hunmarked : Unmarked o.keys := by
      rw [hnil]
      intro f fs h
      cases h
    rw [read_written hunmarked, hnil] at hread
    obtain ⟨more, hmore⟩ := Progress.done_writes 0 [[]] [] records
    rw [Progress.shows, List.length_nil, hmore] at hread
    have hmem : ([] : Text) ∈ head := (List.cons.inj hread).1 ▸ List.mem_singleton.mpr rfl
    rw [hkeys, hnil] at hmem
    cases hmem
  · intro f fs hmark hf
    rw [hmark, read_written_mark hf] at hread
    split at hread
    next =>
      have hlen' := congrArg List.length hread
      have := length_shows_first (fs.length + 1) ((mark :: f) :: fs) records
      rw [List.nil_append, List.length_tail, List.length_cons] at hlen'
      omega
    next =>
      have hnodup : ((mark :: f) :: fs).Nodup := hmark ▸ o.nodup
      have hmem : mark :: f ∈ head := (hkeys _).mpr (hmark ▸ List.mem_cons_self)
      rw [← (List.cons.inj hread).1] at hmem
      rcases List.mem_cons.mp hmem with heq | hmem
      · exact List.cons_ne_self _ _ heq
      · exact (List.nodup_cons.mp hnodup).1 hmem

theorem objects_iff (o : IndexMap Text V) (rows : List (IndexMap Text V)) :
    (∀ t, stringify c display ((o :: rows).map .object) = .ok t →
      parse c true t = .ok ((o :: rows).map fun o' => .object (restrict display o o'))) ↔
    o.keys ≠ [] ∧ Unmarked o.keys := by
  rw [stringify_objects]
  generalize hrecords : (o :: rows).map (cells display o.keys) = records
  constructor
  · intro h
    have hparse := (parse_written c true _).symm.trans (h _ rfl)
    have hrows := Except.ok.inj hparse
    rw [if_pos rfl] at hrows
    cases hread : read (written (o.keys :: records)) with
    | nil =>
      rw [hread] at hrows
      cases hrows
    | cons head rows' =>
      rw [hread] at hrows
      exact header_of_named display hread hrows (by rw [← hrecords, List.length_map])
  · rintro ⟨hkeys, hunmarked⟩ t ⟨⟩
    have hread := (read_written_iff (o.keys :: records)).mpr
      ⟨hkeys, hunmarked, hrecords ▸ even_cells display o.keys (o :: rows)⟩
    rw [parse_written, if_pos rfl, hread, ← hrecords]
    simp only [List.map_map]
    exact congrArg Except.ok (List.map_congr_left fun o' _ =>
      congrArg Row.object (named_cells display o o'))

/-- The text is read back as the rows it was made of exactly where rows of arrays are regular, and
the first of objects has a key and begins with no mark. -/
theorem stringify_roundTrip :
    (∀ rows : List (List V),
      (∀ t, stringify c display (rows.map .array) = .ok t →
        parse c false t = .ok (rows.map fun items => .array (items.map display))) ↔
      Regular (rows.map (·.map display))) ∧
    ∀ (o : IndexMap Text V) (rows : List (IndexMap Text V)),
      (∀ t, stringify c display ((o :: rows).map .object) = .ok t →
        parse c true t = .ok ((o :: rows).map fun o' => .object (restrict display o o'))) ↔
      o.keys ≠ [] ∧ Unmarked o.keys :=
  ⟨arrays_iff c display, objects_iff c display⟩

/-- Two rows that are each too short are read as one. -/
theorem stringify_merges :
    ∃ t, stringify .plain id ([[['a'], ['b']], [['c']], [['d']]].map Row.array) = .ok t ∧
      t = "a,b\nc,d\n".toList ∧
      parse .plain false t = .ok [.array [['a'], ['b']], .array [['c'], ['d']]] :=
  ⟨_, rfl, rfl, rfl⟩

end AScript.Stdlib.Csv
