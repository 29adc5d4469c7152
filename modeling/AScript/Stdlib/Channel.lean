import AScript.Lib.Machine
import AScript.Stdlib.Sync

universe u v

namespace AScript.Stdlib.Channel

open AScript.Lib

variable {τ : Type u} {α : Type v}

/-- A task calls, is polled after a wakeup, or is cancelled where it is parked. -/
inductive Event (τ : Type u) (α : Type v)
  | send (t : τ) (v : α)
  | recv (t : τ)
  | tryRecv
  | close
  | pollSend (k : Nat)
  | pollRecv (k : Nat)
  | cancelSend (slot : Slot)
  | cancelRecv (slot : Slot)

/-- The answer a step gives, if it gives one. -/
inductive Effect (τ : Type u) (α : Type v)
  | sent (t : τ) (v : α) (r : Except String Unit)
  | received (t : τ) (r : Received α)
  | tried (r : Option α)
  | silent

def stepSend (ch : Channel τ α) (t : τ) (v : α) : Option (Effect τ α × Channel τ α) :=
  (ch.send t v).map fun
    | (.ready r, ch') => (.sent t v r, ch')
    | (.pending, ch') => (.silent, ch')

def stepRecv (ch : Channel τ α) (t : τ) : Option (Effect τ α × Channel τ α) :=
  (ch.recv t).map fun
    | (.ready r, ch') => (.received t r, ch')
    | (.pending, ch') => (.silent, ch')

def step (ch : Channel τ α) : Event τ α → Option (Effect τ α × Channel τ α)
  | .send t v => ch.stepSend t v
  | .recv t => ch.stepRecv t
  | .tryRecv => some (.tried ch.tryRecv.1, ch.tryRecv.2)
  | .close => some (.silent, ch.close)
  | .pollSend k => (ch.notFull.poll k).bind fun ((t, v), notFull) => stepSend
      { ch with notFull } t v
  | .pollRecv k => (ch.notEmpty.poll k).bind fun (t, notEmpty) => stepRecv { ch with notEmpty } t
  | .cancelSend slot => (ch.notFull.drop slot).map fun notFull => (.silent, { ch with notFull })
  | .cancelRecv slot => (ch.notEmpty.drop slot).map fun notEmpty => (.silent, { ch with notEmpty })

def machine : Machine (Channel τ α) (Event τ α) (Effect τ α) := ⟨step⟩

def accepted (os : List (Effect τ α)) : List α := os.filterMap fun
  | .sent _ v (.ok _) => some v
  | _ => none

def received (os : List (Effect τ α)) : List α := os.filterMap fun
  | .received _ (.value v) => some v
  | .tried r => r
  | _ => none

section Calls

variable {ch ch' : Channel τ α} {o : Effect τ α}

theorem stepSend_cases (h : ch.stepSend t v = some (o, ch')) :
    (ch.queue.closed = true ∧ o = .sent t v (.error "sync.send: channel is closed") ∧ ch' = ch) ∨
    (ch.queue.closed = false ∧ ch.queue.isFull = true ∧ o = .silent ∧
      ch' = { ch with notFull := ch.notFull.park (t, v) }) ∨
    (ch.queue.closed = false ∧ ch.queue.isFull = false ∧ o = .sent t v (.ok ()) ∧
      ch' = { ch with
        queue := { ch.queue with queue := ch.queue.queue ++ [v] }
        notEmpty := ch.notEmpty.notifyOne }) := by
  cases hc : ch.queue.closed with
  | true =>
    rw [stepSend, send_closed hc] at h
    cases h
    exact .inl ⟨rfl, rfl, rfl⟩
  | false =>
    cases hf : ch.queue.isFull with
    | true =>
      rw [stepSend, send_full hc hf] at h
      cases h
      exact .inr (.inl ⟨rfl, rfl, rfl, rfl⟩)
    | false =>
      rw [stepSend, send_free hc hf] at h
      cases h
      exact .inr (.inr ⟨rfl, rfl, rfl, rfl⟩)

theorem stepRecv_cases (h : ch.stepRecv t = some (o, ch')) :
    (∃ v rest, ch.queue.queue = v :: rest ∧ o = .received t (.value v) ∧
      ch' = { ch with
        queue := { ch.queue with queue := rest }
        notFull := ch.notFull.notifyOne }) ∨
    (ch.queue.queue = [] ∧ ch.queue.closed = true ∧ o = .received t .closed ∧ ch' = ch) ∨
    (ch.queue.queue = [] ∧ ch.queue.closed = false ∧ o = .silent ∧
      ch' = { ch with notEmpty := ch.notEmpty.park t }) := by
  cases hq : ch.queue.queue with
  | cons v rest =>
    rw [stepRecv, recv_value hq] at h
    cases h
    exact .inl ⟨v, rest, rfl, rfl, rfl⟩
  | nil =>
    cases hc : ch.queue.closed with
    | true =>
      rw [stepRecv, recv_closed hq hc] at h
      cases h
      exact .inr (.inl ⟨rfl, rfl, rfl, rfl⟩)
    | false =>
      rw [stepRecv, recv_empty hq hc] at h
      cases h
      exact .inr (.inr ⟨rfl, rfl, rfl, rfl⟩)

end Calls

/-- `r` receivers and `s` senders are being polled, and stand for no wakeup any more. -/
structure Inv (cap r s : Nat) (ch : Channel τ α) : Prop where
  capacity : ch.queue.capacity = cap
  bounded : 0 < cap → ch.queue.queue.length ≤ cap
  unbounded : cap = 0 → ch.notFull.waiting = []
  closed : ch.queue.closed = true → ch.notEmpty.waiting = [] ∧ ch.notFull.waiting = []
  receivers : ch.notEmpty.Covers (ch.queue.queue.length - r)
  senders : ch.notFull.Covers (cap - ch.queue.queue.length - s)

section Steps

variable {ch ch' : Channel τ α} {o : Effect τ α}

theorem inv_new (cap : Nat) : Inv cap 0 0 (new cap : Channel τ α) where
  capacity := rfl
  bounded _ := Nat.zero_le _
  unbounded _ := rfl
  closed h := nomatch h
  receivers := Notify.covers_of_idle rfl
  senders := Notify.covers_of_idle rfl

theorem Inv.relax (h : Inv cap 0 0 ch) : Inv cap r s ch where
  capacity := h.capacity
  bounded := h.bounded
  unbounded := h.unbounded
  closed := h.closed
  receivers := h.receivers.mono (Nat.sub_le _ _)
  senders := h.senders.mono (Nat.sub_le _ _)

theorem isFull_iff (h : Inv cap r s ch) :
    ch.queue.isFull = true ↔ 0 < cap ∧ cap ≤ ch.queue.queue.length := by
  rw [ChannelQueue.isFull, h.capacity, Bool.and_eq_true, decide_eq_true_iff, decide_eq_true_iff]

theorem stepSend_inv (h : Inv cap 0 1 ch) (hs : ch.stepSend t v = some (o, ch')) :
    Inv cap 0 0 ch' := by
  obtain ⟨hc, -, rfl⟩ | ⟨hc, hf, -, rfl⟩ | ⟨hc, hf, -, rfl⟩ := stepSend_cases hs
  · exact { h with senders := Notify.covers_of_idle (h.closed hc).2 }
  · have hfull := (isFull_iff h).mp hf
    refine ⟨h.capacity, h.bounded, fun h0 => ?_, fun hc' => ?_, h.receivers, ?_⟩
    · omega
    · cases hc.symm.trans hc'
    · exact Notify.covers_park.mono (by simp only; omega)
  · have hfree := mt (isFull_iff h).mpr (ne_true_of_eq_false hf)
    have hlen : (ch.queue.queue ++ [v]).length = ch.queue.queue.length + 1 := List.length_append
    refine ⟨h.capacity, fun h0 => ?_, h.unbounded, fun hc' => ?_, ?_, ?_⟩
    · simp only [hlen]
      omega
    · cases hc.symm.trans hc'
    · simp only [hlen]
      exact h.receivers.notifyOne
    · simp only [hlen]
      exact h.senders.mono (by omega)

theorem popped_inv (h : Inv cap 1 0 ch) (hq : ch.queue.queue = v :: rest) :
    Inv cap 0 0 { ch with
      queue := { ch.queue with queue := rest }
      notFull := ch.notFull.notifyOne } := by
  have hlen : ch.queue.queue.length = rest.length + 1 := by rw [hq, List.length_cons]
  have hr := h.receivers
  have hs := h.senders
  rw [hlen] at hr hs
  refine ⟨h.capacity, fun h0 => ?_, fun h0 => Notify.idle_notifyOne (h.unbounded h0), fun hc => ?_,
    hr, hs.notifyOne.mono (by simp only; omega)⟩
  · have := h.bounded h0
    simp only
    omega
  · exact ⟨(h.closed hc).1, Notify.idle_notifyOne (h.closed hc).2⟩

theorem stepRecv_inv (h : Inv cap 1 0 ch) (hs : ch.stepRecv t = some (o, ch')) :
    Inv cap 0 0 ch' := by
  obtain ⟨v, rest, hq, -, rfl⟩ | ⟨-, hc, -, rfl⟩ | ⟨hq, hc, -, rfl⟩ := stepRecv_cases hs
  · exact popped_inv h hq
  · exact { h with receivers := Notify.covers_of_idle (h.closed hc).1 }
  · refine ⟨h.capacity, h.bounded, h.unbounded, fun hc' => ?_, ?_, h.senders⟩
    · cases hc.symm.trans hc'
    · simp only [hq]
      exact Notify.covers_park

theorem tryRecv_inv (h : Inv cap 0 0 ch) : Inv cap 0 0 ch.tryRecv.2 := by
  rw [tryRecv]
  split
  next v rest hq => exact popped_inv h.relax hq
  next => exact h

theorem close_inv (h : Inv cap 0 0 ch) : Inv cap 0 0 ch.close where
  capacity := h.capacity
  bounded := h.bounded
  unbounded _ := rfl
  closed _ := ⟨rfl, rfl⟩
  receivers := Notify.covers_of_idle rfl
  senders := Notify.covers_of_idle rfl

theorem step_inv (h : Inv cap 0 0 ch) (hs : step ch e = some (o, ch')) : Inv cap 0 0 ch' := by
  cases e with
  | send t v => exact stepSend_inv h.relax hs
  | recv t => exact stepRecv_inv h.relax hs
  | tryRecv =>
    cases hs
    exact tryRecv_inv h
  | close =>
    cases hs
    exact close_inv h
  | pollSend k =>
    obtain ⟨⟨⟨t, v⟩, notFull⟩, hp, hs⟩ := Option.bind_eq_some_iff.mp hs
    refine stepSend_inv ?_ hs
    exact { h with
      unbounded := fun h0 => Notify.idle_poll (h.unbounded h0) hp
      closed := fun hc => ⟨(h.closed hc).1, Notify.idle_poll (h.closed hc).2 hp⟩
      senders := h.senders.poll hp }
  | pollRecv k =>
    obtain ⟨⟨t, notEmpty⟩, hp, hs⟩ := Option.bind_eq_some_iff.mp hs
    refine stepRecv_inv ?_ hs
    exact { h with
      closed := fun hc => ⟨Notify.idle_poll (h.closed hc).1 hp, (h.closed hc).2⟩
      receivers := h.receivers.poll hp }
  | cancelSend slot =>
    obtain ⟨notFull, hd, he⟩ := Option.map_eq_some_iff.mp hs
    cases he
    exact { h with
      unbounded := fun h0 => Notify.idle_drop (h.unbounded h0) hd
      closed := fun hc => ⟨(h.closed hc).1, Notify.idle_drop (h.closed hc).2 hd⟩
      senders := h.senders.drop hd }
  | cancelRecv slot =>
    obtain ⟨notEmpty, hd, he⟩ := Option.map_eq_some_iff.mp hs
    cases he
    exact { h with
      closed := fun hc => ⟨Notify.idle_drop (h.closed hc).1 hd, (h.closed hc).2⟩
      receivers := h.receivers.drop hd }

end Steps

inductive QueueStep (q : ChannelQueue α) : Effect τ α → ChannelQueue α → Prop
  | push : q.closed = false → QueueStep q (.sent t v (.ok ())) { q with queue := q.queue ++ [v] }
  | pop : q.queue = v :: rest → accepted [o] = [] → received [o] = [v] →
    QueueStep q o { q with queue := rest }
  | close : QueueStep q .silent { q with closed := true }
  | keep : accepted [o] = [] → received [o] = [] → QueueStep q o q

section Queue

variable {ch ch' : Channel τ α} {o : Effect τ α} {q q' : ChannelQueue α}

theorem stepSend_queue (hs : ch.stepSend t v = some (o, ch')) : QueueStep ch.queue o ch'.queue := by
  obtain ⟨-, rfl, rfl⟩ | ⟨-, -, rfl, rfl⟩ | ⟨hc, -, rfl, rfl⟩ := stepSend_cases hs
  · exact .keep rfl rfl
  · exact .keep rfl rfl
  · exact .push hc

theorem stepRecv_queue (hs : ch.stepRecv t = some (o, ch')) : QueueStep ch.queue o ch'.queue := by
  obtain ⟨v, rest, hq, rfl, rfl⟩ | ⟨-, -, rfl, rfl⟩ | ⟨-, -, rfl, rfl⟩ := stepRecv_cases hs
  · exact .pop hq rfl rfl
  · exact .keep rfl rfl
  · exact .keep rfl rfl

theorem step_queue (hs : step ch e = some (o, ch')) : QueueStep ch.queue o ch'.queue := by
  cases e with
  | send t v => exact stepSend_queue hs
  | recv t => exact stepRecv_queue hs
  | tryRecv =>
    cases hs
    rw [tryRecv]
    split
    next v rest hq => exact .pop hq rfl rfl
    next => exact .keep rfl rfl
  | close =>
    cases hs
    exact .close
  | pollSend k =>
    obtain ⟨⟨⟨t, v⟩, notFull⟩, -, hs⟩ := Option.bind_eq_some_iff.mp hs
    have hq := stepSend_queue hs
    exact hq
  | pollRecv k =>
    obtain ⟨⟨t, notEmpty⟩, -, hs⟩ := Option.bind_eq_some_iff.mp hs
    have hq := stepRecv_queue hs
    exact hq
  | cancelSend slot =>
    obtain ⟨_, -, he⟩ := Option.map_eq_some_iff.mp hs
    cases he
    exact .keep rfl rfl
  | cancelRecv slot =>
    obtain ⟨_, -, he⟩ := Option.map_eq_some_iff.mp hs
    cases he
    exact .keep rfl rfl

theorem QueueStep.conserves (h : QueueStep q o q') :
    q.queue ++ accepted [o] = received [o] ++ q'.queue := by
  cases h with
  | push _ => rfl
  | pop hq ha hr => rw [hq, ha, hr, List.append_nil, List.singleton_append]
  | close => exact List.append_nil _
  | keep ha hr => rw [ha, hr, List.append_nil, List.nil_append]

theorem QueueStep.refuses (h : QueueStep q o q') (hc : q.closed = true) :
    accepted [o] = [] ∧ q'.closed = true := by
  cases h with
  | push hopen => cases hopen.symm.trans hc
  | pop _ ha _ => exact ⟨ha, hc⟩
  | close => exact ⟨rfl, rfl⟩
  | keep ha _ => exact ⟨ha, hc⟩

theorem accepted_append (os os' : List (Effect τ α)) :
    accepted (os ++ os') = accepted os ++ accepted os' := List.filterMap_append

theorem received_append (os os' : List (Effect τ α)) :
    received (os ++ os') = received os ++ received os' := List.filterMap_append

theorem run_conserves (hr : machine.run (new cap) es = some (os, ch)) :
    accepted os = received os ++ ch.queue.queue := by
  refine machine.run_history (I := fun os ch => accepted os = received os ++ ch.queue.queue)
    ?_ [] rfl hr
  intro past s e o s' h hs
  rw [accepted_append, received_append, h, List.append_assoc, List.append_assoc,
    (step_queue hs).conserves]

theorem run_refuses (hc : ch.queue.closed = true) (hr : machine.run ch es = some (os, ch')) :
    accepted os = [] := by
  refine (machine.run_history (I := fun os ch => accepted os = [] ∧ ch.queue.closed = true)
    ?_ [] ⟨rfl, hc⟩ hr).1
  intro past s e o s' h hs
  obtain ⟨ho, hc'⟩ := (step_queue hs).refuses h.2
  exact ⟨by rw [accepted_append, h.1, ho]; rfl, hc'⟩

end Queue

structure NoNil (nil : α) (ch : Channel τ α) : Prop where
  queue : nil ∉ ch.queue.queue
  senders : ∀ w ∈ ch.notFull.futures, w.2 ≠ nil

section Nil

variable {ch ch' : Channel τ α} {o : Effect τ α} {nil : α}

theorem stepSend_noNil (h : NoNil nil ch) (hv : v ≠ nil) (hs : ch.stepSend t v = some (o, ch')) :
    NoNil nil ch' := by
  obtain ⟨-, -, rfl⟩ | ⟨-, -, -, rfl⟩ | ⟨-, -, -, rfl⟩ := stepSend_cases hs
  · exact h
  · refine ⟨h.queue, fun w hw => ?_⟩
    cases List.mem_cons.mp (Notify.futures_park.mem_iff.mp hw) with
    | inl he => exact he ▸ hv
    | inr hw => exact h.senders w hw
  · refine ⟨fun hm => ?_, h.senders⟩
    cases List.mem_append.mp hm with
    | inl hm => exact h.queue hm
    | inr hm => exact hv (List.mem_singleton.mp hm).symm

theorem popped_noNil (h : NoNil nil ch) (hq : ch.queue.queue = v :: rest) :
    NoNil nil { ch with
      queue := { ch.queue with queue := rest }
      notFull := ch.notFull.notifyOne } where
  queue hm := h.queue (hq ▸ List.mem_cons_of_mem v hm)
  senders w hw := h.senders w (Notify.futures_notifyOne.mem_iff.mp hw)

theorem stepRecv_noNil (h : NoNil nil ch) (hs : ch.stepRecv t = some (o, ch')) :
    NoNil nil ch' := by
  obtain ⟨v, rest, hq, -, rfl⟩ | ⟨-, -, -, rfl⟩ | ⟨-, -, -, rfl⟩ := stepRecv_cases hs
  · exact popped_noNil h hq
  · exact h
  · exact ⟨h.queue, h.senders⟩

theorem step_noNil (h : NoNil nil ch) (he : ∀ t v, e = .send t v → v ≠ nil)
    (hs : step ch e = some (o, ch')) : NoNil nil ch' := by
  cases e with
  | send t v => exact stepSend_noNil h (he t v rfl) hs
  | recv t => exact stepRecv_noNil h hs
  | tryRecv =>
    cases hs
    rw [tryRecv]
    split
    next v rest hq => exact popped_noNil h hq
    next => exact h
  | close =>
    cases hs
    exact ⟨h.queue, fun w hw => h.senders w (Notify.futures_notifyWaiters.mem_iff.mp hw)⟩
  | pollSend k =>
    obtain ⟨⟨⟨t, v⟩, notFull⟩, hp, hs⟩ := Option.bind_eq_some_iff.mp hs
    have hw := Notify.futures_poll hp
    have hn : NoNil nil { ch with notFull } :=
      ⟨h.queue, fun w hm => h.senders w (hw.mem_iff.mpr (.tail _ hm))⟩
    exact stepSend_noNil hn (h.senders (t, v) (hw.mem_iff.mpr (.head _))) hs
  | pollRecv k =>
    obtain ⟨⟨t, notEmpty⟩, -, hs⟩ := Option.bind_eq_some_iff.mp hs
    have hn : NoNil nil { ch with notEmpty } := ⟨h.queue, h.senders⟩
    exact stepRecv_noNil hn hs
  | cancelSend slot =>
    obtain ⟨notFull, hd, he⟩ := Option.map_eq_some_iff.mp hs
    cases he
    obtain ⟨x, hx⟩ := Notify.futures_drop hd
    exact ⟨h.queue, fun w hm => h.senders w (hx.mem_iff.mpr (.tail _ hm))⟩
  | cancelRecv slot =>
    obtain ⟨notEmpty, -, he⟩ := Option.map_eq_some_iff.mp hs
    cases he
    exact ⟨h.queue, h.senders⟩

theorem stepRecv_nil (h : NoNil nil ch) (hs : ch.stepRecv t = some (.received t' r, ch'))
    (hr : r.answer nil = nil) : ch.queue.closed = true ∧ ch.queue.queue = [] := by
  obtain ⟨v, rest, hq, ho, -⟩ | ⟨hq, hc, -, -⟩ | ⟨-, -, ho, -⟩ := stepRecv_cases hs
  · cases ho
    exact absurd (hq ▸ hr ▸ List.mem_cons_self) h.queue
  · exact ⟨hc, hq⟩
  · cases ho

theorem step_nil (h : NoNil nil ch) (hs : step ch e = some (.received t r, ch'))
    (hr : r.answer nil = nil) : ch.queue.closed = true ∧ ch.queue.queue = [] := by
  cases e with
  | recv t => exact stepRecv_nil h hs hr
  | pollRecv k =>
    obtain ⟨⟨t, notEmpty⟩, -, hs⟩ := Option.bind_eq_some_iff.mp hs
    have hn : NoNil nil { ch with notEmpty } := ⟨h.queue, h.senders⟩
    have hq := stepRecv_nil hn hs hr
    exact hq
  | send t v =>
    obtain ⟨-, ho, -⟩ | ⟨-, -, ho, -⟩ | ⟨-, -, ho, -⟩ := stepSend_cases hs <;> cases ho
  | pollSend k =>
    obtain ⟨⟨⟨t, v⟩, notFull⟩, -, hs⟩ := Option.bind_eq_some_iff.mp hs
    obtain ⟨-, ho, -⟩ | ⟨-, -, ho, -⟩ | ⟨-, -, ho, -⟩ := stepSend_cases hs <;> cases ho
  | tryRecv => cases hs
  | close => cases hs
  | cancelSend slot =>
    obtain ⟨_, -, he⟩ := Option.map_eq_some_iff.mp hs
    cases he
  | cancelRecv slot =>
    obtain ⟨_, -, he⟩ := Option.map_eq_some_iff.mp hs
    cases he

theorem run_noNil (hes : ∀ t v, Event.send t v ∈ es → v ≠ nil)
    (hr : machine.run (new cap) es = some (os, ch)) : NoNil nil ch := by
  have hp := machine.along_of_forall (s := new cap)
    (P := fun _ e => ∀ t v, e = .send t v → v ≠ nil) fun _ e he t v hv => hes t v (hv ▸ he)
  have hnew : NoNil nil (new cap : Channel τ α) := ⟨List.not_mem_nil, fun w hw => (nomatch hw)⟩
  exact (machine.run_along (Q := fun _ => True)
    (fun _ _ _ _ h he hs => ⟨trivial, step_noNil h he hs⟩) hnew hp hr).2

end Nil

structure Sound (cap : Nat) (os : List (Effect τ α)) (ch : Channel τ α) : Prop where
  /-- What was accepted is, in order, what was received and then what is queued. -/
  fifo : accepted os = received os ++ ch.queue.queue
  bounded : 0 < cap → ch.queue.queue.length ≤ cap
  refuses : ∀ es os' ch', machine.run ch (.close :: es) = some (os', ch') → accepted os' = []
  receivers : ch.notEmpty.waiting ≠ [] → ch.queue.queue ≠ [] ∨ ch.queue.closed = true →
    ch.notEmpty.woken ≠ []
  senders : ch.notFull.waiting ≠ [] →
    (cap = 0 ∨ ch.queue.queue.length < cap) ∨ ch.queue.closed = true → ch.notFull.woken ≠ []

theorem Inv.receivers_woken {ch : Channel τ α} (h : Inv cap 0 0 ch)
    (hw : ch.notEmpty.waiting ≠ []) (hq : ch.queue.queue ≠ [] ∨ ch.queue.closed = true) :
    ch.notEmpty.woken ≠ [] := by
  rcases hq with hq | hc
  · exact h.receivers.woken_ne_nil hw (List.length_pos_of_ne_nil hq)
  · exact absurd (h.closed hc).1 hw

theorem Inv.senders_woken {ch : Channel τ α} (h : Inv cap 0 0 ch) (hw : ch.notFull.waiting ≠ [])
    (hq : (cap = 0 ∨ ch.queue.queue.length < cap) ∨ ch.queue.closed = true) :
    ch.notFull.woken ≠ [] := by
  rcases hq with (h0 | hlt) | hc
  · exact absurd (h.unbounded h0) hw
  · exact h.senders.woken_ne_nil hw (by omega)
  · exact absurd (h.closed hc).2 hw

/-- Whatever the schedule and the cancellations; and a receiver that finds nil has found the
channel closed and drained, if no nil was ever sent. -/
theorem channel_sound {ch : Channel τ α} (nil : α)
    (hr : machine.run (new cap) es = some (os, ch)) :
    Sound cap os ch ∧ ((∀ t v, Event.send t v ∈ es → v ≠ nil) → ∀ e t r ch',
      step ch e = some (.received t r, ch') → r.answer nil = nil →
        ch.queue.closed = true ∧ ch.queue.queue = []) := by
  have hinv : Inv cap 0 0 ch :=
    machine.run_invariant (fun _ _ _ _ h hs => step_inv h hs) (inv_new cap) hr
  refine ⟨⟨run_conserves hr, hinv.bounded, fun es os' ch' hr' => ?_, hinv.receivers_woken,
    hinv.senders_woken⟩, fun hes e t r ch' hs hn => step_nil (run_noNil hes hr) hs hn⟩
  obtain ⟨⟨os₁, ch₁⟩, h₁, he⟩ := Option.map_eq_some_iff.mp hr'
  cases he
  have hnone := run_refuses rfl h₁
  exact hnone

def drainRun : List (Event Nat (Option Nat)) :=
  [.send 0 (some 7), .send 1 (some 8), .close, .pollSend 0, .recv 2]

def drainEffects : List (Effect Nat (Option Nat)) :=
  [.sent 0 (some 7) (.ok ()), .silent, .silent,
    .sent 1 (some 8) (.error "sync.send: channel is closed"), .received 2 (.value (some 7))]

def drained : Channel Nat (Option Nat) := ⟨⟨[], 1, true⟩, ⟨true, [], []⟩, ⟨true, [], []⟩⟩

/-- A bounded channel with a parked sender is closed and then drained. -/
theorem channel_sound_drained :
    machine.run (new 1) drainRun = some (drainEffects, drained) ∧
      Sound 1 drainEffects drained ∧
      step drained (.recv 3) = some (.received 3 .closed, drained) ∧
      drained.queue.closed = true ∧ drained.queue.queue = [] := by
  have hr : machine.run (new 1) drainRun = some (drainEffects, drained) := rfl
  obtain ⟨hsound, hnil⟩ := channel_sound none hr
  refine ⟨hr, hsound, rfl, hnil (fun t v hm => ?_) (.recv 3) 3 .closed _ rfl rfl⟩
  simp only [drainRun, List.mem_cons, Event.send.injEq, reduceCtorEq, List.not_mem_nil,
    or_false] at hm
  rcases hm with ⟨-, rfl⟩ | ⟨-, rfl⟩ <;> simp

/-- A nil that was sent is received from an open channel. -/
theorem recv_nil_open :
    ∃ os ch ch', machine.run (new 0 : Channel Nat (Option Nat)) [.send 0 none] = some (os, ch) ∧
      step ch (.recv 1) = some (.received 1 (.value none), ch') ∧
      (Received.value none).answer (none : Option Nat) = none ∧
      ¬(ch.queue.closed = true ∧ ch.queue.queue = []) :=
  ⟨_, _, _, rfl, rfl, rfl, fun h => nomatch h.1⟩

end AScript.Stdlib.Channel
