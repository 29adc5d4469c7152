import AScript.Lib.Calendar
import AScript.Stdlib.Cron

namespace AScript.Stdlib.Cron

open AScript.Lib (bind_ok)
open AScript.Lib.Calendar

def minuteMs : Int := 60000

def hourMs : Int := 3600000

def dayMs : Int := 86400000

/-- The instants that chrono represents, in milliseconds from the epoch; a midnight is the first. -/
structure Chrono where
  first : Int
  last : Int
  midnight : dayMs ∣ first

/-- `None`, a panic of chrono's arithmetic, or a loop that outruns its fuel. -/
inductive NoNext
  | miss
  | panics
  | spins
  deriving DecidableEq

def date (t : Int) : Date := dateOf (t / dayMs)

def weekday (t : Int) : Nat := ((t / dayMs + 4) % 7).toNat

def hour (t : Int) : Nat := (t % dayMs / hourMs).toNat

def minute (t : Int) : Nat := (t % hourMs / minuteMs).toNat

def hasBit (bits : BitVec w) (i : Nat) : Bool := bits &&& 1#w <<< i ≠ 0

namespace CronSchedule

def matchesCivil (sched : CronSchedule) (minute hour day month weekday : Nat) : Bool :=
  if !hasBit sched.minutes minute then false
  else if !hasBit sched.hours hour then false
  else if !hasBit sched.months month then false
  else
    match sched.domRestricted, sched.dowRestricted with
    | true, true => hasBit sched.dom day || hasBit sched.dow weekday
    | true, false => hasBit sched.dom day
    | false, true => hasBit sched.dow weekday
    | false, false => true

def dayMatches (sched : CronSchedule) (day weekday : Nat) : Bool :=
  match sched.domRestricted, sched.dowRestricted with
  | true, true => hasBit sched.dom day || hasBit sched.dow weekday
  | true, false => hasBit sched.dom day
  | false, true => hasBit sched.dow weekday
  | false, false => true

/-- At the civil time `t`. -/
def matchesTime (sched : CronSchedule) (t : Int) : Bool :=
  sched.matchesCivil (minute t) (hour t) (date t).day (date t).month (weekday t)

/-- `matches_at`, for an instant that chrono represents. -/
def matchesAt (sched : CronSchedule) (epochMs tzOffset : Int) : Bool :=
  sched.matchesTime (epochMs + tzOffset * minuteMs)

theorem matchesTime_eq (sched : CronSchedule) (t : Int) :
    sched.matchesTime t = (hasBit sched.minutes (minute t) && hasBit sched.hours (hour t) &&
      hasBit sched.months (date t).month && sched.dayMatches (date t).day (weekday t)) := by
  unfold matchesTime matchesCivil dayMatches
  cases hasBit sched.minutes (minute t) <;> cases hasBit sched.hours (hour t) <;>
    cases hasBit sched.months (date t).month <;> simp

end CronSchedule

namespace Chrono

def represents (c : Chrono) (t : Int) : Bool := c.first ≤ t && t ≤ c.last

def checked (c : Chrono) (t : Int) : Except NoNext Int :=
  if c.represents t then .ok t else .error .miss

def add (c : Chrono) (t d : Int) : Except NoNext Int :=
  if c.represents (t + d) then .ok (t + d) else .error .panics

theorem checked_ok (c : Chrono) (h : c.first ≤ t) (h' : t ≤ c.last) : c.checked t = .ok t := by
  simp [checked, represents, h, h']

theorem add_ok (c : Chrono) (h : c.first ≤ t + d) (h' : t + d ≤ c.last) :
    c.add t d = .ok (t + d) := by
  simp [add, represents, h, h']

end Chrono

def firstOfNextMonth (c : Chrono) (t : Int) : Except NoNext Int :=
  c.checked (dayNumber (date t).nextMonth * dayMs)

def nextDayMidnight (c : Chrono) (t : Int) : Except NoNext Int := do
  let midnight ← c.checked (t - t % dayMs)
  c.add midnight dayMs

def minutesBetween (a b : Int) : Int := max ((b - a).tdiv minuteMs) 0

def maxScanMinutes : Int := 5 * 366 * 24 * 60

def scan (c : Chrono) (sched : CronSchedule) (off : Int) : Nat → (civil scanned : Int) →
    Except NoNext Int
  | 0, _, _ => .error .spins
  | fuel + 1, civil, scanned =>
    if scanned < maxScanMinutes then
      if !hasBit sched.months (date civil).month then do
        let next ← firstOfNextMonth c civil
        scan c sched off fuel next (scanned + minutesBetween civil next)
      else if !sched.dayMatches (date civil).day (weekday civil) then do
        let next ← nextDayMidnight c civil
        scan c sched off fuel next (scanned + minutesBetween civil next)
      else if hasBit sched.hours (hour civil) && hasBit sched.minutes (minute civil) then
        c.add civil (-off)
      else do
        let next ← c.add civil minuteMs
        scan c sched off fuel next (scanned + 1)
    else .error .miss

def nextAfter (c : Chrono) (fuel : Nat) (sched : CronSchedule) (afterMs tzOffset : Int) :
    Except NoNext Int := do
  let off := tzOffset * minuteMs
  let base ← c.checked afterMs
  let civil ← c.add base off
  let civil ← c.add civil minuteMs
  let civil ← c.checked (civil - civil % minuteMs)
  scan c sched off fuel civil 0

/-- From `t` on, up to `next`, nothing on the whole minutes matches. -/
structure Skips (sched : CronSchedule) (t next : Int) : Prop where
  later : t < next
  near : next ≤ t + 31 * dayMs
  whole : minuteMs ∣ next
  misses : ∀ u, minuteMs ∣ u → t ≤ u → u < next → sched.matchesTime u = false

theorem month_skips (hm : hasBit sched.months (date t).month = false) :
    Skips sched t (dayNumber (date t).nextMonth * dayMs) := by
  have hnumber : dayNumber (date t).nextMonth = t / dayMs + left (t / dayMs) := by
    rw [date, ← dateOf_left, dayNumber_dateOf]
  have hpos := left_pos (t / dayMs)
  have hle := left_le (t / dayMs)
  rw [hnumber]
  constructor
  · unfold dayMs at *
    omega
  · unfold dayMs at *
    omega
  · exact Dvd.dvd.mul_left (by decide) _
  · intro u _ htu hu
    obtain ⟨i, hi⟩ : ∃ i : Nat, u / dayMs = t / dayMs + i := by
      refine ⟨(u / dayMs - t / dayMs).toNat, ?_⟩
      unfold dayMs at *
      omega
    have hlt : i < left (t / dayMs) := by
      unfold dayMs at *
      omega
    have hmonth := (dateOf_within (t / dayMs) hlt).2.1
    rw [← hi] at hmonth
    rw [CronSchedule.matchesTime_eq, date, hmonth, ← date, hm]
    simp

theorem day_skips (hd : sched.dayMatches (date t).day (weekday t) = false) :
    Skips sched t (t - t % dayMs + dayMs) := by
  constructor
  · unfold dayMs at *
    omega
  · unfold dayMs at *
    omega
  · unfold dayMs minuteMs at *
    omega
  · intro u _ htu hu
    have hday : u / dayMs = t / dayMs := by
      unfold dayMs at *
      omega
    rw [CronSchedule.matchesTime_eq, date, weekday, hday, ← date, ← weekday, hd, Bool.and_false]

theorem minute_skips (ht : minuteMs ∣ t)
    (hm : (hasBit sched.hours (hour t) && hasBit sched.minutes (minute t)) = false) :
    Skips sched t (t + minuteMs) := by
  constructor
  · unfold minuteMs
    omega
  · unfold minuteMs dayMs
    omega
  · exact Int.dvd_add ht (Int.dvd_refl _)
  · intro u hu htu hlt
    have heq : u = t := by
      unfold minuteMs at *
      omega
    rw [heq, CronSchedule.matchesTime_eq, Bool.and_comm (hasBit sched.minutes _), hm]
    rfl

theorem Skips.minutesBetween (h : Skips sched t next) (ht : minuteMs ∣ t) :
    minutesBetween t next * minuteMs = next - t := by
  have hlater := h.later
  obtain ⟨k, hk⟩ := Int.dvd_sub h.whole ht
  have hdiv : (minuteMs * k).tdiv minuteMs = k := Int.mul_tdiv_cancel_left _ (by decide)
  have hpos : 0 ≤ k := by
    unfold minuteMs at *
    omega
  rw [Cron.minutesBetween, hk, hdiv, max_eq_left hpos, Int.mul_comm]

/-- Up to `civil`, scanned so many minutes from `start`, nothing matched. -/
structure Scanned (sched : CronSchedule) (start civil scanned : Int) : Prop where
  whole : minuteMs ∣ civil
  elapsed : civil = start + scanned * minuteMs
  misses : ∀ u, minuteMs ∣ u → start ≤ u → u < civil → sched.matchesTime u = false

theorem Scanned.skip (h : Scanned sched start civil scanned) (hs : Skips sched civil next) :
    Scanned sched start next (scanned + minutesBetween civil next) := by
  constructor
  · exact hs.whole
  · rw [Int.add_mul, hs.minutesBetween h.whole, ← Int.add_assoc, ← h.elapsed]
    omega
  · intro u hu hstart hlt
    by_cases hc : u < civil
    · exact h.misses u hu hstart hc
    · exact hs.misses u hu (Int.not_lt.mp hc) hlt

theorem Skips.advances (h : Skips sched t next) (ht : minuteMs ∣ t) :
    1 ≤ Cron.minutesBetween t next := by
  have hb := h.minutesBetween ht
  have hlater := h.later
  unfold minuteMs at hb
  omega

inductive Found (sched : CronSchedule) (start off : Int) : Except NoNext Int → Prop
  | hit : Scanned sched start civil scanned → sched.matchesTime civil = true → start ≤ civil →
      Found sched start off (.ok (civil - off))
  | miss : Scanned sched start civil scanned → maxScanMinutes ≤ scanned →
      Found sched start off (.error .miss)

/-- Chrono represents what a scan from `start` can touch. -/
structure Reaches (c : Chrono) (start off : Int) : Prop where
  first : c.first ≤ start
  last : start + maxScanMinutes * minuteMs + 31 * dayMs ≤ c.last
  firstBack : c.first ≤ start - off
  lastBack : start - off + maxScanMinutes * minuteMs ≤ c.last

theorem scan_found {fuel : Nat} (hr : Reaches c start off) (h : Scanned sched start civil scanned)
    (h0 : 0 ≤ scanned) (hfuel : maxScanMinutes < scanned + fuel) (hf : 0 < fuel) :
    Found sched start off (scan c sched off fuel civil scanned) := by
  induction fuel generalizing civil scanned with
  | zero => omega
  | succ fuel ih =>
    rw [scan]
    split
    next hlt =>
      have helapsed := h.elapsed
      obtain ⟨hfirst, hlast, hfirst', hlast'⟩ := hr
      have hms : (0 : Int) < minuteMs := by decide
      -- one skip, of whichever kind, then the rest of the scan
      have hnext (next) (hs : Skips sched civil next) :
          Found sched start off (scan c sched off fuel next
            (scanned + minutesBetween civil next)) := by
        have hadv := hs.advances h.whole
        exact ih (h.skip hs) (by omega) (by omega) (by omega)
      have hin (next) (hs : Skips sched civil next) : c.first ≤ next ∧ next ≤ c.last := by
        have hlater := hs.later
        have hnear := hs.near
        unfold minuteMs dayMs at *
        omega
      split
      next hm =>
        have hs := month_skips (by simpa using hm)
        obtain ⟨hle, hle'⟩ := hin _ hs
        rw [firstOfNextMonth, Chrono.checked_ok c hle hle']
        exact hnext _ hs
      next hm =>
        split
        next hd =>
          have hs := day_skips (t := civil) (by simpa using hd)
          obtain ⟨hle, hle'⟩ := hin _ hs
          have hmid := c.midnight
          rw [nextDayMidnight, Chrono.checked_ok c (t := civil - civil % dayMs) (by
            unfold minuteMs dayMs at *
            omega) (by
            unfold minuteMs dayMs at *
            omega)]
          simp only [bind, Except.bind]
          rw [Chrono.add_ok c hle hle']
          exact hnext _ hs
        next hd =>
          split
          next hhit =>
            rw [Chrono.add_ok c (by unfold minuteMs at *; omega) (by unfold minuteMs at *; omega)]
            refine .hit h ?_ (by unfold minuteMs at *; omega)
            rw [CronSchedule.matchesTime_eq, Bool.and_comm (hasBit sched.minutes _), hhit]
            simp_all
          next hmiss =>
            have hs := minute_skips h.whole (by simpa using hmiss)
            obtain ⟨hle, hle'⟩ := hin _ hs
            rw [Chrono.add_ok c hle hle']
            have hone : minutesBetween civil (civil + minuteMs) = 1 := by
              have hb := hs.minutesBetween h.whole
              unfold minuteMs at *
              omega
            rw [← hone]
            exact hnext _ hs
    next hge => exact .miss h (by omega)

theorem bind_mono {f g : Int → Except NoNext Int} {x : Except NoNext Int}
    (h : ∀ a, f a ≠ .error .spins → g a = f a) (hx : x >>= f ≠ .error .spins) :
    x >>= g = x >>= f := by
  cases x with
  | error e => rfl
  | ok a => exact h a hx

theorem scan_mono {fuel : Nat} (hr : scan c sched off fuel civil scanned ≠ .error .spins)
    (k : Nat) :
    scan c sched off (fuel + k) civil scanned = scan c sched off fuel civil scanned := by
  induction fuel generalizing civil scanned with
  | zero => exact absurd rfl hr
  | succ fuel ih =>
    rw [scan] at hr
    rw [Nat.add_right_comm, scan, scan]
    split at hr
    next hlt =>
      simp only [if_pos hlt]
      split at hr
      next hm =>
        simp only [if_pos hm]
        exact bind_mono (fun _ => ih) hr
      next hm =>
        simp only [if_neg hm]
        split at hr
        next hd =>
          simp only [if_pos hd]
          exact bind_mono (fun _ => ih) hr
        next hd =>
          simp only [if_neg hd]
          split at hr
          next hhit => simp only [if_pos hhit]
          next hhit =>
            simp only [if_neg hhit]
            exact bind_mono (fun _ => ih) hr
    next hge => simp only [if_neg hge]

/-- Chrono represents the five leap years and the month after `t`. -/
structure Chrono.Covers (c : Chrono) (t : Int) : Prop where
  first : c.first ≤ t
  last : t + (5 * 366 + 32) * dayMs ≤ c.last

/-- The whole minute after `after` that matches first, or none for five leap years. -/
def IsNext (sched : CronSchedule) (after tzOffset : Int) : Except NoNext Int → Prop
  | .ok t => minuteMs ∣ t ∧ after < t ∧ sched.matchesAt t tzOffset = true ∧
      ∀ u, minuteMs ∣ u → after < u → u < t → sched.matchesAt u tzOffset = false
  | .error .miss => ∀ u, minuteMs ∣ u → after < u → u ≤ after + 5 * 366 * dayMs →
      sched.matchesAt u tzOffset = false
  | .error _ => False

def firstMinute (after tzOffset : Int) : Int :=
  after + tzOffset * minuteMs + minuteMs - (after + tzOffset * minuteMs + minuteMs) % minuteMs

theorem firstMinute_spec (after tzOffset : Int) :
    after + tzOffset * minuteMs < firstMinute after tzOffset ∧
      firstMinute after tzOffset ≤ after + tzOffset * minuteMs + minuteMs ∧
      minuteMs ∣ firstMinute after tzOffset := by
  unfold firstMinute minuteMs
  omega

theorem firstMinute_le (hu : minuteMs ∣ u) (h : after < u) :
    firstMinute after tzOffset ≤ u + tzOffset * minuteMs := by
  unfold firstMinute minuteMs at *
  omega

theorem Found.isNext (h : Found sched (firstMinute after tzOffset) (tzOffset * minuteMs) r) :
    IsNext sched after tzOffset r := by
  obtain ⟨hlt, hle, -⟩ := firstMinute_spec after tzOffset
  cases h with
  | hit hs hm hciv =>
    refine ⟨Int.dvd_sub hs.whole (Int.dvd_mul_left _ _), by omega, ?_, fun u hu hafter hu' => ?_⟩
    · rw [CronSchedule.matchesAt, Int.sub_add_cancel]
      exact hm
    · exact hs.misses _ (Int.dvd_add hu (Int.dvd_mul_left _ _)) (firstMinute_le hu hafter)
        (by omega)
  | miss hs hmax =>
    intro u hu hafter hle'
    have helapsed := hs.elapsed
    apply hs.misses _ (Int.dvd_add hu (Int.dvd_mul_left _ _)) (firstMinute_le hu hafter)
    unfold minuteMs dayMs maxScanMinutes at *
    omega

theorem nextAfter_scan (hutc : Chrono.Covers c after)
    (hcivil : c.Covers (after + tzOffset * minuteMs)) (fuel : Nat) (sched : CronSchedule) :
    nextAfter c fuel sched after tzOffset =
      scan c sched (tzOffset * minuteMs) fuel (firstMinute after tzOffset) 0 := by
  obtain ⟨hfirst, hlast⟩ := hutc
  obtain ⟨hfirst', hlast'⟩ := hcivil
  obtain ⟨hlt, hle, -⟩ := firstMinute_spec after tzOffset
  unfold nextAfter
  rw [Chrono.checked_ok c hfirst (by unfold dayMs at *; omega)]
  simp only [bind, Except.bind]
  rw [Chrono.add_ok c hfirst' (by unfold dayMs at *; omega)]
  dsimp only
  rw [Chrono.add_ok c (by unfold minuteMs at *; omega) (by unfold dayMs minuteMs at *; omega)]
  dsimp only
  rw [← firstMinute, Chrono.checked_ok c (by omega) (by unfold dayMs minuteMs at *; omega)]

/-- The scan always ends, and with the exact successor. -/
theorem nextAfter_isNext (c : Chrono) (sched : CronSchedule) (after tzOffset : Int)
    (hutc : c.Covers after) (hcivil : c.Covers (after + tzOffset * minuteMs)) :
    ∃ r, IsNext sched after tzOffset r ∧
      ∀ fuel : Nat, maxScanMinutes < fuel → nextAfter c fuel sched after tzOffset = r := by
  obtain ⟨hlt, hle, hwhole⟩ := firstMinute_spec after tzOffset
  have hreaches : Reaches c (firstMinute after tzOffset) (tzOffset * minuteMs) := by
    obtain ⟨hfirst, hlast⟩ := hutc
    obtain ⟨hfirst', hlast'⟩ := hcivil
    constructor <;> simp only [minuteMs, maxScanMinutes, dayMs] at * <;> omega
  have hscanned : Scanned sched (firstMinute after tzOffset) (firstMinute after tzOffset) 0 :=
    ⟨hwhole, by omega, fun u _ hle hlt => absurd hlt (by omega)⟩
  have hfound (fuel : Nat) (hf : maxScanMinutes < fuel) :=
    scan_found hreaches hscanned (Int.le_refl 0) (by omega)
      (show 0 < fuel by unfold maxScanMinutes at hf; omega)
  obtain ⟨n, hn, hmin⟩ : ∃ n : Nat, maxScanMinutes < n ∧ ∀ m : Nat, maxScanMinutes < m → n ≤ m :=
    ⟨maxScanMinutes.toNat + 1, by decide, fun m hm => by unfold maxScanMinutes at *; omega⟩
  refine ⟨_, (hfound n hn).isNext, fun fuel hf => ?_⟩
  obtain ⟨k, rfl⟩ := Nat.exists_eq_add_of_le (hmin fuel hf)
  rw [nextAfter_scan hutc hcivil]
  apply scan_mono
  intro hspins
  have hs := hfound n hn
  rw [hspins] at hs
  cases hs

/-- From the epoch at UTC, to the 29th of February of a leap year. -/
theorem nextAfter_isNext_epoch :
    ∃ r, IsNext ⟨1, 1, 0x20000000, 4, 0x7f, true, false⟩ 0 0 r ∧
      ∀ fuel : Nat, maxScanMinutes < fuel →
        nextAfter ⟨-8334601228800000, 8210266876799999, by decide⟩ fuel
          ⟨1, 1, 0x20000000, 4, 0x7f, true, false⟩ 0 0 = r :=
  nextAfter_isNext _ _ _ _ ⟨by decide, by decide⟩ ⟨by decide, by decide⟩

end AScript.Stdlib.Cron
