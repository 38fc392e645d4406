import Mathlib.Data.List.Basic
import Mathlib.Order.Basic
import Mathlib.Tactic.Ring
import Stratum.Lib.Run

/-!
# The hybrid logical clock

A `Clock` is a wall time in milliseconds and a logical counter. `Now` and `Update` read the
physical clock, which may stall or go backwards; the reading is an argument of the model. `Now`
packs the two numbers into a timestamp by shifting the wall time by sixteen bits and OR-ing the
counter into the low bits, although the counter has **thirty-two** bits.

`System` is a set of clocks that send each other timestamps: a clock is updated with what another
one has returned. The events of a clock are the timestamps it returned and those it has seen, and
the clock is right when each timestamp it returns is above all earlier events.

* `Clock.rank` is the pair of wall time and counter as one number. While the counter fits sixteen
  bits the timestamp is the rank (`timestamp_toNat`), `now` increases it and `update` takes it
  above the remote timestamp.
* `System.ordered_of_hasRoom`: along every run in which no call on the clock takes the counter
  beyond sixteen bits, the events of the clock are ordered.
* `System.ordered_fails_when_stalled`: with a physical clock that stands still, `65537` calls of
  `Now` return the first timestamp again.
-/

namespace Stratum.Hlc

/-- `Clock`. -/
structure Clock where
  wall : Int64
  logical : UInt32
deriving DecidableEq, Repr

namespace Clock

/-- `NewClock`. -/
def newClock : Clock := ⟨0, 0⟩

/-- The packed form of the two numbers. -/
def timestamp (c : Clock) : UInt64 := c.wall.toUInt64 <<< 16 ||| c.logical.toUInt64

/-- `Now`, when the physical clock reads `t`: the clock after it, and what it returns. -/
def now (c : Clock) (t : Int64) : Clock × UInt64 :=
  let c : Clock := if t > c.wall then ⟨t, 0⟩ else { c with logical := c.logical + 1 }
  (c, c.timestamp)

/-- The wall time of a remote timestamp. -/
def remoteWall (remote : UInt64) : Int64 := (remote >>> 16).toInt64

/-- The counter of a remote timestamp. -/
def remoteLogical (remote : UInt64) : UInt32 := (remote &&& 0xFFFF).toUInt32

/-- `Update`, when the physical clock reads `t`. -/
def update (c : Clock) (t : Int64) (remote : UInt64) : Clock :=
  if t > c.wall ∧ t > remoteWall remote then ⟨t, 0⟩
  else if c.wall ≥ t ∧ c.wall ≥ remoteWall remote then
    let logical := if c.wall = remoteWall remote ∧ remoteLogical remote > c.logical
      then remoteLogical remote else c.logical
    { c with logical := logical + 1 }
  else if remoteWall remote ≥ t ∧ remoteWall remote ≥ c.wall then
    ⟨remoteWall remote, remoteLogical remote + 1⟩
  else c

end Clock

/-! ### Clocks that exchange timestamps -/

/-- What happens at a clock: it returns a timestamp, or it is updated with one. -/
inductive Event
  | returned (ts : UInt64)
  | seen (ts : UInt64)
deriving DecidableEq, Repr

/-- The timestamp of an event. -/
def Event.stamp : Event → UInt64
  | .returned ts | .seen ts => ts

/-- The order that a clock promises for an event and a later one: what it returns is above. -/
def Event.Before (a : Event) : Event → Prop
  | .returned ts => a.stamp < ts
  | .seen _ => True

/-- A call on the clock `i`, with what the physical clock reads. -/
inductive Call
  | now (i : ℕ) (t : Int64)
  | update (i : ℕ) (t : Int64) (remote : UInt64)
deriving DecidableEq, Repr

/-- The clock that is called. -/
def Call.target : Call → ℕ
  | .now i _ | .update i _ _ => i

/-- The readings of a physical clock: not negative, and below `2 ^ 47` milliseconds. -/
def IsReading (t : Int64) : Prop := 0 ≤ t.toInt ∧ t.toInt < 2 ^ 47

instance (t : Int64) : Decidable (IsReading t) := inferInstanceAs (Decidable (_ ∧ _))

/-- The clocks, and the events at each of them in the order in which they happened. -/
structure System where
  clocks : ℕ → Clock
  events : List (ℕ × Event)

namespace System

/-- New clocks. -/
def init : System := ⟨fun _ => .newClock, []⟩

/-- The events at one clock. -/
def eventsOf (s : System) (i : ℕ) : List Event :=
  (s.events.filter fun p => p.1 = i).map Prod.snd

/-- Another clock has returned this timestamp. -/
def ReturnedElsewhere (s : System) (i : ℕ) (ts : UInt64) : Prop :=
  ∃ p ∈ s.events, p.1 ≠ i ∧ p.2 = .returned ts

instance (s : System) (i : ℕ) (ts : UInt64) : Decidable (s.ReturnedElsewhere i ts) :=
  inferInstanceAs (Decidable (∃ p ∈ s.events, _))

/-- The clock `i` becomes `c` in an event. -/
def record (s : System) (i : ℕ) (c : Clock) (e : Event) : System :=
  ⟨Function.update s.clocks i c, s.events ++ [(i, e)]⟩

/-- One call. A clock is updated with what another one has returned. -/
def step (s : System) : Call → Option System
  | .now i t =>
    if IsReading t then
      let (c, ts) := (s.clocks i).now t
      some (s.record i c (.returned ts))
    else none
  | .update i t remote =>
    if IsReading t ∧ s.ReturnedElsewhere i remote then
      some (s.record i ((s.clocks i).update t remote) (.seen remote))
    else none

/-- The events at a clock are in the order it promises. -/
def Ordered (s : System) (i : ℕ) : Prop := (s.eventsOf i).Pairwise Event.Before

end System

/-! ### Ranks -/

namespace Clock

/-- The wall time and the counter as one number. -/
def rank (c : Clock) : ℕ := c.wall.toInt.toNat * 2 ^ 16 + c.logical.toNat

private theorem toNat_toUInt64 {w : Int64} (h : 0 ≤ w.toInt) :
    w.toUInt64.toNat = w.toInt.toNat := by
  have hw : w.toInt = if 2 * w.toUInt64.toNat < 2 ^ 64 then (w.toUInt64.toNat : ℤ)
      else w.toUInt64.toNat - (2 ^ 64 : ℕ) := BitVec.toInt_eq_toNat_cond w.toUInt64.toBitVec
  have hlt : w.toUInt64.toNat < 2 ^ 64 := w.toUInt64.toNat_lt
  split at hw <;> omega

variable {r : UInt64} {c : Clock} {t : Int64}

private theorem toInt_toInt64 (h : r.toNat < 2 ^ 63) :
    r.toInt64.toInt = r.toNat :=
  BitVec.toInt_eq_toNat_of_lt (x := r.toBitVec) (show 2 * r.toNat < 2 ^ 64 by omega)

theorem remoteWall_toInt (h : r.toNat < 2 ^ 63) :
    (remoteWall r).toInt = (r.toNat / 2 ^ 16 : ℕ) := by
  have hshift : (r >>> 16).toNat = r.toNat / 2 ^ 16 := by simp [Nat.shiftRight_eq_div_pow]
  rw [remoteWall, toInt_toInt64 (by omega), hshift]

theorem remoteLogical_toNat (r : UInt64) : (remoteLogical r).toNat = r.toNat % 2 ^ 16 := by
  have hand : (r &&& 0xFFFF).toNat = r.toNat % 2 ^ 16 :=
    Nat.and_two_pow_sub_one_eq_mod r.toNat 16
  rw [remoteLogical, UInt64.toNat_toUInt32, hand]
  omega

private theorem wall_shift (h : IsReading c.wall) :
    (c.wall.toUInt64 <<< 16).toNat = c.wall.toInt.toNat <<< 16 := by
  have hw := toNat_toUInt64 h.1
  have hlt : c.wall.toInt.toNat * 2 ^ 16 < 2 ^ 64 := by
    have := h.2
    omega
  rw [UInt64.toNat_shiftLeft, hw, Nat.shiftLeft_eq]
  simpa [Nat.shiftLeft_eq] using hlt

/-- A timestamp has 63 bits, whatever the counter. -/
theorem timestamp_lt (h : IsReading c.wall) : c.timestamp.toNat < 2 ^ 63 := by
  rw [timestamp, UInt64.toNat_or, wall_shift h]
  refine Nat.or_lt_two_pow ?_ ?_
  · rw [Nat.shiftLeft_eq]
    have := h.2
    omega
  · have := c.logical.toNat_lt
    simp only [UInt32.toNat_toUInt64]
    omega

/-- **While the counter fits its sixteen bits, the timestamp is the rank.** -/
theorem timestamp_toNat (h : IsReading c.wall) (hl : c.logical.toNat < 2 ^ 16) :
    c.timestamp.toNat = c.rank := by
  rw [timestamp, UInt64.toNat_or, wall_shift h, UInt32.toNat_toUInt64,
    ← Nat.shiftLeft_add_eq_or_of_lt hl, Nat.shiftLeft_eq, rank]

/-- The call does not take the counter beyond sixteen bits: it sets the counter back, or the
counter that it increments is below `0xFFFF`. -/
def HasRoom (c : Clock) : Call → Prop
  | .now _ t => c.wall < t ∨ c.logical < 0xFFFF
  | .update _ t remote =>
    (c.wall < t ∧ remoteWall remote < t) ∨
      ((remoteWall remote ≤ c.wall → c.logical < 0xFFFF) ∧
        (c.wall ≤ remoteWall remote → remoteLogical remote < 0xFFFF))

instance (c : Clock) : ∀ call, Decidable (c.HasRoom call)
  | .now _ _ => inferInstanceAs (Decidable (_ ∨ _))
  | .update _ _ _ => inferInstanceAs (Decidable (_ ∨ (_ ∧ _)))

private theorem toNat_succ {l : UInt32} (h : l < 0xFFFF) : (l + 1).toNat = l.toNat + 1 := by
  have hl : l.toNat < 65535 := UInt32.lt_iff_toNat_lt.mp h
  rw [UInt32.toNat_add]
  simp only [UInt32.toNat_one]
  omega

theorem wall_now (h : IsReading c.wall) (ht : IsReading t) :
    IsReading (c.now t).1.wall := by
  rw [now]
  dsimp only
  split
  · exact ht
  · exact h

theorem wall_update (h : IsReading c.wall) (ht : IsReading t) (hr : r.toNat < 2 ^ 63) :
    IsReading (c.update t r).wall := by
  rw [update]
  split_ifs
  · exact ht
  · exact h
  · exact h
  · rw [IsReading, remoteWall_toInt hr]
    omega
  · exact h

/-- **`Now` increases the rank.** -/
theorem rank_lt_now {i : ℕ} (h : IsReading c.wall) (hl : c.logical.toNat < 2 ^ 16)
    (hroom : c.HasRoom (.now i t)) :
    c.rank < (c.now t).1.rank ∧ (c.now t).1.logical.toNat < 2 ^ 16 := by
  have hw := h.1
  rw [now]
  dsimp only
  split
  · rename_i hgt
    have hgt := Int64.lt_iff_toInt_lt.mp hgt
    simp only [rank, UInt32.toNat_zero]
    omega
  · rename_i hle
    have hlt : c.logical < 0xFFFF := hroom.resolve_left hle
    have hlt' : c.logical.toNat < 65535 := UInt32.lt_iff_toNat_lt.mp hlt
    simp only [rank, toNat_succ hlt]
    omega

/-- **`Update` takes the rank above the remote timestamp**, and increases it. -/
theorem rank_lt_update {i : ℕ} (h : IsReading c.wall) (hl : c.logical.toNat < 2 ^ 16)
    (hr : r.toNat < 2 ^ 63) (hroom : c.HasRoom (.update i t r)) :
    c.rank < (c.update t r).rank ∧ r.toNat < (c.update t r).rank ∧
      (c.update t r).logical.toNat < 2 ^ 16 := by
  have hw := h.1
  have hrw := remoteWall_toInt hr
  have hrl := remoteLogical_toNat r
  have hroom' : ¬ (c.wall < t ∧ remoteWall r < t) →
      (remoteWall r ≤ c.wall → c.logical < 0xFFFF) ∧
        (c.wall ≤ remoteWall r → remoteLogical r < 0xFFFF) := hroom.resolve_left
  rw [update]
  split_ifs with h1 h2 h3 h4
  · obtain ⟨ha, hb⟩ := h1
    have ha := Int64.lt_iff_toInt_lt.mp ha
    have hb := Int64.lt_iff_toInt_lt.mp hb
    simp only [rank, UInt32.toNat_zero]
    omega
  · -- the same wall time, and the remote counter is ahead
    obtain ⟨heq, hgt⟩ := h3
    have hlt : remoteLogical r < 0xFFFF := (hroom' h1).2 (heq ▸ Int64.le_refl _)
    have hlt' : (remoteLogical r).toNat < 65535 := UInt32.lt_iff_toNat_lt.mp hlt
    have hgt := UInt32.lt_iff_toNat_lt.mp hgt
    have hwall := congrArg Int64.toInt heq
    simp only [rank, toNat_succ hlt]
    omega
  · have hlt : c.logical < 0xFFFF := (hroom' h1).1 h2.2
    have hlt' : c.logical.toNat < 65535 := UInt32.lt_iff_toNat_lt.mp hlt
    have hle := Int64.le_iff_toInt_le.mp h2.2
    -- an equal wall time comes with a remote counter that is not ahead
    have hcmp : c.wall.toInt = (remoteWall r).toInt → (remoteLogical r).toNat ≤ c.logical.toNat :=
      fun heq => UInt32.le_iff_toNat_le.mp
        (UInt32.not_lt.mp fun hgt => h3 ⟨Int64.toInt_inj.mp heq, hgt⟩)
    simp only [rank, toNat_succ hlt]
    omega
  · have hlt : remoteLogical r < 0xFFFF := (hroom' h1).2 h4.2
    have hlt' : (remoteLogical r).toNat < 65535 := UInt32.lt_iff_toNat_lt.mp hlt
    have hle := Int64.le_iff_toInt_le.mp h4.2
    have hne : (remoteWall r).toInt ≠ c.wall.toInt := by
      intro heq
      have heq := Int64.toInt_inj.mp heq
      exact h2 ⟨heq ▸ h4.1, heq ▸ Int64.le_refl _⟩
    simp only [rank, toNat_succ hlt]
    omega
  · -- one of the three is the largest, so this branch is never taken
    simp only [ge_iff_le, gt_iff_lt, Int64.lt_iff_toInt_lt, Int64.le_iff_toInt_le] at h1 h2 h4
    omega

end Clock

/-! ### Runs -/

namespace System

variable {s s' : System} {call : Call} {i : ℕ}

theorem eventsOf_record_self (s : System) (i : ℕ) (c : Clock) (e : Event) :
    (s.record i c e).eventsOf i = s.eventsOf i ++ [e] := by
  simp [eventsOf, record]

theorem eventsOf_record_of_ne {i j : ℕ} (h : j ≠ i) (s : System) (c : Clock) (e : Event) :
    (s.record j c e).eventsOf i = s.eventsOf i := by
  simp [eventsOf, record, h]

/-- **Inversion**: a call is `Now` or `Update` on one of the clocks. -/
theorem step_cases (h : s.step call = some s') :
    (∃ i t, call = .now i t ∧ IsReading t ∧
      s' = s.record i ((s.clocks i).now t).1 (.returned ((s.clocks i).now t).2)) ∨
    (∃ i t r, call = .update i t r ∧ IsReading t ∧ s.ReturnedElsewhere i r ∧
      s' = s.record i ((s.clocks i).update t r) (.seen r)) := by
  cases call with
  | now i t =>
    simp only [step] at h
    split at h <;> cases h
    exact .inl ⟨i, t, rfl, ‹_›, rfl⟩
  | update i t r =>
    simp only [step] at h
    split at h <;> cases h
    rename_i hc
    exact .inr ⟨i, t, r, rfl, hc.1, hc.2, rfl⟩

/-- What holds of all clocks without any condition: the wall times are readings, and returned
timestamps have 63 bits. -/
structure Sound (s : System) : Prop where
  wall : ∀ i, IsReading (s.clocks i).wall
  returned : ∀ p ∈ s.events, ∀ ts, p.2 = .returned ts → ts.toNat < 2 ^ 63

theorem sound_init : init.Sound where
  wall _ := show IsReading Clock.newClock.wall by decide
  returned _ hp := by simp [init] at hp

private theorem Sound.record (h : s.Sound) {c : Clock} {e : Event} (hc : IsReading c.wall)
    (he : ∀ ts, e = .returned ts → ts.toNat < 2 ^ 63) : (s.record i c e).Sound where
  wall j := by
    by_cases hj : j = i
    · simpa [System.record, hj] using hc
    · simpa [System.record, hj] using h.wall j
  returned p hp ts hts := by
    rcases List.mem_append.mp hp with hp | hp
    · exact h.returned p hp ts hts
    · obtain rfl := List.mem_singleton.mp hp
      exact he ts hts

theorem Sound.step (h : s.Sound) (hs : s.step call = some s') : s'.Sound := by
  obtain ⟨i, t, -, ht, rfl⟩ | ⟨i, t, r, -, ht, ⟨p, hp, -, hr⟩, rfl⟩ := step_cases hs
  · refine h.record (Clock.wall_now (h.wall i) ht) fun ts hts => ?_
    cases hts
    exact Clock.timestamp_lt (Clock.wall_now (h.wall i) ht)
  · exact h.record (Clock.wall_update (h.wall i) ht (h.returned p hp r hr)) nofun

/-- The events at the clock are ordered, and none is above its rank. -/
structure Ranked (s : System) (i : ℕ) : Prop where
  sound : s.Sound
  logical : (s.clocks i).logical.toNat < 2 ^ 16
  ordered : s.Ordered i
  stamp_le : ∀ e ∈ s.eventsOf i, e.stamp.toNat ≤ (s.clocks i).rank

theorem ranked_init (i : ℕ) : init.Ranked i where
  sound := sound_init
  logical := show Clock.newClock.logical.toNat < 2 ^ 16 by decide
  ordered := by simp [Ordered, init, eventsOf]
  stamp_le := by simp [init, eventsOf]

/-- An event at the clock that its rank keeps up with. -/
private theorem Ranked.record (h : s.Ranked i) {c : Clock} {e : Event}
    (hsound : (s.record i c e).Sound) (hc : c.logical.toNat < 2 ^ 16)
    (hle : (s.clocks i).rank ≤ c.rank) (he : e.stamp.toNat ≤ c.rank)
    (hbefore : ∀ ts, e = .returned ts → (s.clocks i).rank < ts.toNat) :
    (s.record i c e).Ranked i where
  sound := hsound
  logical := by simpa [System.record] using hc
  ordered := by
    rw [Ordered, eventsOf_record_self, List.pairwise_append]
    refine ⟨h.ordered, List.pairwise_singleton _ _, fun a ha b hb => ?_⟩
    obtain rfl := List.mem_singleton.mp hb
    cases b with
    | returned ts =>
      exact UInt64.lt_iff_toNat_lt.mpr (Nat.lt_of_le_of_lt (h.stamp_le a ha) (hbefore ts rfl))
    | seen ts => trivial
  stamp_le a ha := by
    rw [eventsOf_record_self, List.mem_append, List.mem_singleton] at ha
    simp only [System.record, Function.update_self]
    rcases ha with ha | rfl
    · exact (h.stamp_le a ha).trans hle
    · exact he

private theorem Ranked.record_of_ne {j : ℕ} (h : s.Ranked i) (hj : j ≠ i) {c : Clock} {e : Event}
    (hsound : (s.record j c e).Sound) : (s.record j c e).Ranked i := by
  have hclock : (s.record j c e).clocks i = s.clocks i := by
    simp [System.record, Function.update_of_ne hj.symm]
  exact
    { sound := hsound
      logical := hclock ▸ h.logical
      ordered := by
        rw [Ordered, eventsOf_record_of_ne hj]
        exact h.ordered
      stamp_le := by
        rw [eventsOf_record_of_ne hj, hclock]
        exact h.stamp_le }

/-- A call on the clock `i` leaves its counter in sixteen bits. -/
def RoomAt (i : ℕ) (s : System) (call : Call) : Prop :=
  call.target = i → (s.clocks i).HasRoom call

instance (i : ℕ) (s : System) (call : Call) : Decidable (RoomAt i s call) :=
  inferInstanceAs (Decidable (_ → _))

theorem Ranked.step (h : s.Ranked i) (hroom : RoomAt i s call) (hs : s.step call = some s') :
    s'.Ranked i := by
  have hsound := h.sound.step hs
  obtain ⟨j, t, rfl, ht, rfl⟩ | ⟨j, t, r, rfl, ht, ⟨p, hp, -, hr⟩, rfl⟩ := step_cases hs
  · by_cases hj : j = i
    · subst hj
      have hwall := h.sound.wall j
      obtain ⟨hlt, hl⟩ := Clock.rank_lt_now hwall h.logical (hroom rfl)
      have hts : ((s.clocks j).now t).2.toNat = ((s.clocks j).now t).1.rank :=
        Clock.timestamp_toNat (Clock.wall_now hwall ht) hl
      refine h.record hsound hl hlt.le hts.le fun ts hreturned => ?_
      cases hreturned
      rw [hts]
      exact hlt
    · exact h.record_of_ne hj hsound
  · by_cases hj : j = i
    · subst hj
      obtain ⟨hlt, hremote, hl⟩ := Clock.rank_lt_update (h.sound.wall j) h.logical
        (h.sound.returned p hp r hr) (hroom rfl)
      exact h.record hsound hl hlt.le hremote.le nofun
    · exact h.record_of_ne hj hsound

/-- **Monotonicity and causality.** Along every run in which the calls on a clock leave its counter
in sixteen bits, each timestamp the clock returns is above all it has returned and seen before;
the other clocks may do what they like. -/
theorem ordered_of_hasRoom {tr : List Call} {i : ℕ} {s : System}
    (hg : Machine.Guarded step (RoomAt i) init tr) (hr : Machine.run step init tr = some s) :
    s.Ordered i :=
  (Machine.run_guarded_invariant (I := (Ranked · i))
    (fun _ _ _ h hroom hs => h.step hroom hs) (ranked_init i) hg hr).ordered

/-- The second clock runs ahead, and the first one learns of it while its own physical clock
stands still. -/
theorem ordered_two_clocks :
    ∃ s, Machine.run step init [.now 0 5, .now 1 7, .update 0 5 458752, .now 0 5] = some s ∧
      s.eventsOf 0 = [.returned 327680, .seen 458752, .returned 458754] ∧
      s.Ordered 0 := by
  refine ⟨_, rfl, rfl,
    @ordered_of_hasRoom [.now 0 5, .now 1 7, .update 0 5 458752, .now 0 5] _ _ ?_ rfl⟩
  decide

/-! ### A physical clock that stands still -/

/-- The clock after the physical clock has read `1` for `n + 1` times. -/
private def stalled (n : ℕ) : System where
  clocks := Function.update (fun _ => .newClock) 0 ⟨1, UInt32.ofNat n⟩
  events := (List.range (n + 1)).map fun k => (0, .returned (65536 ||| UInt64.ofNat k))

private theorem step_stalled {n : ℕ} (hn : n + 1 < 2 ^ 32) :
    (stalled n).step (.now 0 1) = some (stalled (n + 1)) := by
  have hlogical : UInt32.ofNat n + 1 = UInt32.ofNat (n + 1) := by
    rw [UInt32.ofNat_add]
    rfl
  have hwide : (UInt32.ofNat (n + 1)).toUInt64 = UInt64.ofNat (n + 1) :=
    UInt64.toNat_inj.mp (by simp; omega)
  have hnow : ((stalled n).clocks 0).now 1
      = (⟨1, UInt32.ofNat (n + 1)⟩, 65536 ||| UInt64.ofNat (n + 1)) := by
    have hts : Clock.timestamp ⟨1, UInt32.ofNat (n + 1)⟩ = 65536 ||| UInt64.ofNat (n + 1) := by
      have hwall : (1 : Int64).toUInt64 <<< 16 = 65536 := by decide
      rw [Clock.timestamp, hwide, hwall]
    simp only [Clock.now, stalled, Function.update_self]
    rw [if_neg (by decide), hlogical, hts]
  rw [step, if_pos (by decide), hnow]
  simp only [record, stalled, Function.update_idem, List.range_succ (n := n + 1), List.map_append,
    List.map_singleton]

private theorem run_stalled {n : ℕ} (hn : n < 2 ^ 32) :
    Machine.run step init (List.replicate (n + 1) (.now 0 1)) = some (stalled n) := by
  induction n with
  | zero => rfl
  | succ n ih =>
    rw [List.replicate_succ', Machine.run_concat]
    exact ⟨_, ih (by omega), step_stalled hn⟩

private theorem eventsOf_stalled (n : ℕ) : (stalled n).eventsOf 0
    = (List.range (n + 1)).map fun k => .returned (65536 ||| UInt64.ofNat k) := by
  rw [eventsOf, stalled, List.filter_eq_self.mpr (by simp), List.map_map]
  rfl

/-- **A timestamp comes back.** The physical clock stands still at `1`; the call number `65537`
finds the counter at `0x10000`, whose only bit is already set by the wall time. -/
theorem ordered_fails_when_stalled :
    ∃ s, Machine.run step init (List.replicate 65537 (.now 0 1)) = some s ∧ ¬ s.Ordered 0 := by
  refine ⟨stalled 65536, run_stalled (by decide), fun h => ?_⟩
  rw [Ordered, eventsOf_stalled, List.pairwise_map, List.pairwise_iff_getElem] at h
  have hlt := h 0 65536 (by simp) (by simp) (by decide)
  rw [List.getElem_range, List.getElem_range] at hlt
  exact absurd hlt (show ¬ (65536 ||| UInt64.ofNat 0) < 65536 ||| UInt64.ofNat 65536 by decide)

end System

end Stratum.Hlc
