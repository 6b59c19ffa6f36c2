import Mathlib

/-!
# Timer coalescing in `TimerQueue::Insert`

`Timer::Set` arms a timer for a `Deadline`: a time `when` and a slack, which give the window
`[earliest(), latest()]` the timer may fire in. The per-cpu queue is a list of timers sorted by
`scheduled_time_`, and `TimerQueue::Insert` walks it once. A timer whose window holds no queued
timer keeps its own time. Otherwise it is coalesced with a queued timer of its window, meant to be
the one nearest to `when`, by taking that timer's `scheduled_time_`.

`zx_time_t` and `zx_duration_t` are `int64_t`s, here `Int`s, with the overflow that
`add_overflow` and `sub_overflow` detect written out: `saturate` is the common tail of
`zx_time_add_duration`, `zx_time_sub_duration` and `zx_time_sub_time`.

`insert_placement` says everything one walk can do: where the timer goes and with what time.
Order, window and slack follow from it. When the window holds a queued timer,
`insert_coalesces` follows the walk from the first one. It shows the chosen timer nearest to
`when` provided the window reaches at least as far after `when` as before it, or not past it at
all. That proviso is where the code parts from its intent: the test for a better fit on the
right, `next < latest_deadline`, is strict while the window is closed, so a queued timer at
exactly `latest_deadline` is never compared. With a centred slack this matters only when
`when + slack` saturates at `ZX_TIME_INFINITE`.
-/

namespace Zircon.Kernel

/-! ## `zx_time_t` arithmetic -/

/-- `ZX_TIME_INFINITE`, the largest `int64_t`. -/
def ZX_TIME_INFINITE : Int := 2 ^ 63 - 1

/-- `ZX_TIME_INFINITE_PAST`, the least `int64_t`. -/
def ZX_TIME_INFINITE_PAST : Int := -2 ^ 63

/-- A value of `zx_time_t` or `zx_duration_t`. -/
def IsTime (x : Int) : Prop := ZX_TIME_INFINITE_PAST ≤ x ∧ x ≤ ZX_TIME_INFINITE

instance (x : Int) : Decidable (IsTime x) := inferInstanceAs (Decidable (_ ∧ _))

/-- The `int64_t` that `add_overflow` and `sub_overflow` store for the exact result `v`. -/
def wrap (v : Int) : Int := (v + 2 ^ 63) % 2 ^ 64 - 2 ^ 63

/-- The common tail of the three: on overflow, a stored result that is not negative came from
below and saturates at `ZX_TIME_INFINITE_PAST`, a negative one at `ZX_TIME_INFINITE`. -/
def saturate (v : Int) : Int :=
  let x := wrap v
  if x ≠ v then (if x ≥ 0 then ZX_TIME_INFINITE_PAST else ZX_TIME_INFINITE) else x

/-- `zx_time_add_duration`. -/
def zx_time_add_duration (time duration : Int) : Int := saturate (time + duration)

/-- `zx_time_sub_duration`. -/
def zx_time_sub_duration (time duration : Int) : Int := saturate (time - duration)

/-- `zx_time_sub_time`. -/
def zx_time_sub_time (time1 time2 : Int) : Int := saturate (time1 - time2)

/-- On the results of adding or subtracting two `int64_t`s, saturation is clamping. -/
theorem saturate_eq {v : Int} (h1 : -2 ^ 64 < v) (h2 : v < 2 ^ 64) :
    saturate v = max ZX_TIME_INFINITE_PAST (min ZX_TIME_INFINITE v) := by
  simp only [saturate, wrap, ZX_TIME_INFINITE, ZX_TIME_INFINITE_PAST] at *
  norm_num at *
  split_ifs <;> omega

theorem saturate_of_isTime {v : Int} (h : IsTime v) : saturate v = v := by
  obtain ⟨h1, h2⟩ := h
  rw [saturate_eq (by unfold ZX_TIME_INFINITE_PAST at h1; omega)
    (by unfold ZX_TIME_INFINITE at h2; omega)]
  omega

/-- A difference that lies in `(0, ZX_TIME_INFINITE]` is computed exactly. -/
theorem zx_time_sub_time_of_pos {a b : Int} (h1 : b < a) (h2 : a - b ≤ ZX_TIME_INFINITE) :
    zx_time_sub_time a b = a - b :=
  saturate_of_isTime ⟨by unfold ZX_TIME_INFINITE_PAST; omega, h2⟩

@[simp]
theorem zx_time_sub_time_self (a : Int) : zx_time_sub_time a a = 0 := by
  rw [zx_time_sub_time, Int.sub_self]
  exact saturate_of_isTime ⟨by decide, by decide⟩

/-! ## Deadlines -/

/-- `slack_mode`. -/
inductive slack_mode
  | TIMER_SLACK_CENTER
  | TIMER_SLACK_EARLY
  | TIMER_SLACK_LATE
deriving DecidableEq, Repr

/-- `TimerSlack`: how far, and to which side, a timer may move. -/
structure TimerSlack where
  amount_ : Int
  mode_ : slack_mode
deriving DecidableEq, Repr

/-- `Deadline`: the time `when_` and its slack. -/
structure Deadline where
  when_ : Int
  slack_ : TimerSlack
deriving DecidableEq, Repr

namespace Deadline

/-- `Deadline::earliest`. The `default:` panic is for a mode outside the enumeration. -/
def earliest (d : Deadline) : Int :=
  match d.slack_.mode_ with
  | .TIMER_SLACK_CENTER => zx_time_sub_duration d.when_ d.slack_.amount_
  | .TIMER_SLACK_LATE => d.when_
  | .TIMER_SLACK_EARLY => zx_time_sub_duration d.when_ d.slack_.amount_

/-- `Deadline::latest`. -/
def latest (d : Deadline) : Int :=
  match d.slack_.mode_ with
  | .TIMER_SLACK_CENTER => zx_time_add_duration d.when_ d.slack_.amount_
  | .TIMER_SLACK_LATE => zx_time_add_duration d.when_ d.slack_.amount_
  | .TIMER_SLACK_EARLY => d.when_

/-- A deadline as the code builds one: `int64_t` fields, and the amount that `TimerSlack`'s
constructor asserts is not negative. -/
structure Valid (d : Deadline) : Prop where
  when_isTime : IsTime d.when_
  amount_isTime : IsTime d.slack_.amount_
  amount_nonneg : 0 ≤ d.slack_.amount_

end Deadline

/-! ## The queue -/

/-- The fields of a `Timer` that `TimerQueue::Insert` reads and writes. -/
structure Timer where
  scheduled_time_ : Int
  slack_ : Int
deriving DecidableEq, Repr

/-- The order `timer_list_` is kept in. -/
def Sorted (timers : List Timer) : Prop :=
  timers.Pairwise fun a b => a.scheduled_time_ ≤ b.scheduled_time_

instance : DecidablePred Sorted := fun timers => inferInstanceAs (Decidable (List.Pairwise _ timers))

/-- The timer that `Insert` places right after `entry`, coalesced with it. -/
def coalesce (entry timer : Timer) : Timer :=
  { scheduled_time_ := entry.scheduled_time_,
    slack_ := zx_time_sub_time entry.scheduled_time_ timer.scheduled_time_ }

/-- `TimerQueue::Insert(timer, earliest_deadline, latest_deadline)` on `timer_list_`. A
`continue` of the loop is the walk going on over the rest of the list, and `next` is the entry
after the current one, if any. -/
def TimerQueue.Insert (timer : Timer) (earliest_deadline latest_deadline : Int) :
    List Timer → List Timer
  | [] => [{ timer with slack_ := 0 }]
  | entry :: rest =>
    if entry.scheduled_time_ > latest_deadline then
      { timer with slack_ := 0 } :: entry :: rest
    else if entry.scheduled_time_ ≥ timer.scheduled_time_ then
      entry :: coalesce entry timer :: rest
    else if entry.scheduled_time_ < earliest_deadline then
      entry :: TimerQueue.Insert timer earliest_deadline latest_deadline rest
    else
      match rest.head? with
      | none => entry :: coalesce entry timer :: rest
      | some next =>
        if next.scheduled_time_ ≤ timer.scheduled_time_ then
          entry :: TimerQueue.Insert timer earliest_deadline latest_deadline rest
        else if next.scheduled_time_ < latest_deadline then
          if zx_time_sub_time next.scheduled_time_ timer.scheduled_time_ <
              zx_time_sub_time timer.scheduled_time_ entry.scheduled_time_ then
            entry :: TimerQueue.Insert timer earliest_deadline latest_deadline rest
          else entry :: coalesce entry timer :: rest
        else entry :: coalesce entry timer :: rest

/-- `Timer::Set(deadline, callback, arg)` on the current cpu's `timer_list_`, for a timer in no
list and active on no other cpu (the two cases it panics on). `currently_active` says the
timer's callback runs on this cpu, and `cancel_` that it was cancelled from there, in which case
the timer is not armed again. -/
def Timer.Set (timer : Timer) (timer_list_ : List Timer) (deadline : Deadline)
    (currently_active cancel_ : Bool) : List Timer :=
  if currently_active && cancel_ then timer_list_
  else
    TimerQueue.Insert { timer with scheduled_time_ := deadline.when_ } deadline.earliest
      deadline.latest timer_list_


/-! ## The exits of one walk

One equation per exit of the loop, with the tests that lead to it. -/

section Steps

variable {timer x next : Timer} {e l : Int} {rest : List Timer}

/-- One turn of the walk, at the entry `x`: the tests of the loop body in order. The exits
below are read off it, so that the definition is unfolded once. -/
theorem insert_cons :
    TimerQueue.Insert timer e l (x :: rest) =
      if x.scheduled_time_ > l then { timer with slack_ := 0 } :: x :: rest
      else if x.scheduled_time_ ≥ timer.scheduled_time_ then x :: coalesce x timer :: rest
      else if x.scheduled_time_ < e then x :: TimerQueue.Insert timer e l rest
      else
        match rest.head? with
        | none => x :: coalesce x timer :: rest
        | some next =>
          if next.scheduled_time_ ≤ timer.scheduled_time_ then x :: TimerQueue.Insert timer e l rest
          else if next.scheduled_time_ < l then
            if zx_time_sub_time next.scheduled_time_ timer.scheduled_time_ <
                zx_time_sub_time timer.scheduled_time_ x.scheduled_time_ then
              x :: TimerQueue.Insert timer e l rest
            else x :: coalesce x timer :: rest
          else x :: coalesce x timer :: rest := by
  rw [TimerQueue.Insert]

/-- The entry is past the window: the timer goes before it, alone. -/
theorem insert_of_lt (h : l < x.scheduled_time_) :
    TimerQueue.Insert timer e l (x :: rest) = { timer with slack_ := 0 } :: x :: rest := by
  rw [insert_cons]
  simp [h]

/-- The entry is in the window at or after the timer's time: coalesce late. -/
theorem insert_of_le (hxl : x.scheduled_time_ ≤ l)
    (hxt : timer.scheduled_time_ ≤ x.scheduled_time_) :
    TimerQueue.Insert timer e l (x :: rest) = x :: coalesce x timer :: rest := by
  rw [insert_cons]
  simp [not_lt.2 hxl, hxt]

/-- The entry is before the window: walk on. -/
theorem insert_of_lt_earliest (hxl : x.scheduled_time_ ≤ l)
    (hxt : x.scheduled_time_ < timer.scheduled_time_) (hxe : x.scheduled_time_ < e) :
    TimerQueue.Insert timer e l (x :: rest) = x :: TimerQueue.Insert timer e l rest := by
  rw [insert_cons]
  simp [not_lt.2 hxl, not_le.2 hxt, hxe]

/-- The last entry is in the window before the timer's time: coalesce early. -/
theorem insert_singleton (hxl : x.scheduled_time_ ≤ l)
    (hxt : x.scheduled_time_ < timer.scheduled_time_) (hex : e ≤ x.scheduled_time_) :
    TimerQueue.Insert timer e l [x] = [x, coalesce x timer] := by
  rw [insert_cons]
  simp [not_lt.2 hxl, not_le.2 hxt, not_lt.2 hex]

/-- The next entry is at or before the timer's time: walk on. -/
theorem insert_of_next_le (hxl : x.scheduled_time_ ≤ l)
    (hxt : x.scheduled_time_ < timer.scheduled_time_) (hex : e ≤ x.scheduled_time_)
    (hnt : next.scheduled_time_ ≤ timer.scheduled_time_) :
    TimerQueue.Insert timer e l (x :: next :: rest) =
      x :: TimerQueue.Insert timer e l (next :: rest) := by
  rw [insert_cons]
  simp [not_lt.2 hxl, not_le.2 hxt, not_lt.2 hex, hnt]

/-- The next entry is after the timer's time, before `latest_deadline` and nearer: walk on. -/
theorem insert_of_next_nearer (hxl : x.scheduled_time_ ≤ l)
    (hxt : x.scheduled_time_ < timer.scheduled_time_) (hex : e ≤ x.scheduled_time_)
    (hnt : timer.scheduled_time_ < next.scheduled_time_) (hnl : next.scheduled_time_ < l)
    (hd : zx_time_sub_time next.scheduled_time_ timer.scheduled_time_ <
      zx_time_sub_time timer.scheduled_time_ x.scheduled_time_) :
    TimerQueue.Insert timer e l (x :: next :: rest) =
      x :: TimerQueue.Insert timer e l (next :: rest) := by
  rw [insert_cons]
  simp [not_lt.2 hxl, not_le.2 hxt, not_lt.2 hex, not_le.2 hnt, hnl, hd]

/-- Otherwise, with a next entry after the timer's time: coalesce early. The distances are
compared only for a next entry strictly before `latest_deadline`. -/
theorem insert_of_next_farther (hxl : x.scheduled_time_ ≤ l)
    (hxt : x.scheduled_time_ < timer.scheduled_time_) (hex : e ≤ x.scheduled_time_)
    (hnt : timer.scheduled_time_ < next.scheduled_time_)
    (hd : next.scheduled_time_ < l → ¬ zx_time_sub_time next.scheduled_time_ timer.scheduled_time_ <
      zx_time_sub_time timer.scheduled_time_ x.scheduled_time_) :
    TimerQueue.Insert timer e l (x :: next :: rest) = x :: coalesce x timer :: next :: rest := by
  simp only [insert_cons, gt_iff_lt, not_lt.2 hxl, ge_iff_le, not_le.2 hxt, not_lt.2 hex,
    List.head?_cons, not_le.2 hnt, if_false]
  by_cases hnl : next.scheduled_time_ < l
  · simp [hnl, hd hnl]
  · simp [hnl]

end Steps

/-! ## Where the timer goes -/

section Walk

variable {timer : Timer} {e l : Int}

/-- Where one walk of `Insert` leaves the timer: as `x`, between the entries `pre` it walked
past and the rest `post` of the list. -/
inductive Placement (timer : Timer) (e l : Int) : List Timer → List Timer → Timer → Prop
  /-- With no slack, before the first entry past the window or at the end; every entry walked
  past is before the timer's own time. -/
  | alone {pre post : List Timer} :
      (∀ y ∈ pre, y.scheduled_time_ < timer.scheduled_time_) →
      (∀ y ∈ post.head?, l < y.scheduled_time_) →
      Placement timer e l pre post { timer with slack_ := 0 }
  /-- Right after an entry of the window, coalesced with it. -/
  | coalesced {pre post : List Timer} {entry : Timer} :
      entry.scheduled_time_ ≤ l →
      (timer.scheduled_time_ ≤ entry.scheduled_time_ ∨ e ≤ entry.scheduled_time_) →
      Placement timer e l (pre ++ [entry]) post (coalesce entry timer)

/-- Walking past an entry before the timer's own time keeps the placement. -/
theorem Placement.cons {pre post : List Timer} {x entry : Timer}
    (hp : Placement timer e l pre post x) (h : entry.scheduled_time_ < timer.scheduled_time_) :
    Placement timer e l (entry :: pre) post x := by
  cases hp with
  | alone hpre hpost =>
    apply Placement.alone _ hpost
    intro y hy
    cases List.mem_cons.1 hy with
    | inl hy => rw [hy]; exact h
    | inr hy => exact hpre y hy
  | coalesced hle hwin =>
    rw [← List.cons_append]
    exact Placement.coalesced hle hwin

/-- Everything one walk can do: the list is split in two, and the timer put between the parts,
alone or coalesced with the entry before it. -/
theorem insert_placement (ts : List Timer) :
    ∃ pre post x, ts = pre ++ post ∧ TimerQueue.Insert timer e l ts = pre ++ x :: post ∧
      Placement timer e l pre post x := by
  induction ts with
  | nil => exact ⟨[], [], _, rfl, rfl, Placement.alone (by simp) (by simp)⟩
  | cons entry rest ih =>
    -- the walk goes past `entry`, and the rest of it is the walk over `rest`
    have hskip (hlt : entry.scheduled_time_ < timer.scheduled_time_)
        (hstep : TimerQueue.Insert timer e l (entry :: rest) =
          entry :: TimerQueue.Insert timer e l rest) :
        ∃ pre post x, entry :: rest = pre ++ post ∧
          TimerQueue.Insert timer e l (entry :: rest) = pre ++ x :: post ∧
          Placement timer e l pre post x := by
      obtain ⟨pre, post, x, hrest, hins, hp⟩ := ih
      exact ⟨entry :: pre, post, x, by rw [hrest]; rfl, by rw [hstep, hins]; rfl, hp.cons hlt⟩
    -- or it stops at `entry` and coalesces with it
    have hco (hle : entry.scheduled_time_ ≤ l)
        (hwin : timer.scheduled_time_ ≤ entry.scheduled_time_ ∨ e ≤ entry.scheduled_time_)
        (hstep : TimerQueue.Insert timer e l (entry :: rest) = entry :: coalesce entry timer :: rest) :
        ∃ pre post x, entry :: rest = pre ++ post ∧
          TimerQueue.Insert timer e l (entry :: rest) = pre ++ x :: post ∧
          Placement timer e l pre post x :=
      ⟨[entry], rest, _, rfl, hstep, @Placement.coalesced timer e l [] rest entry hle hwin⟩
    by_cases h1 : l < entry.scheduled_time_
    · exact ⟨[], entry :: rest, _, rfl, insert_of_lt h1,
        Placement.alone (by simp) (by simpa using h1)⟩
    have h1 : entry.scheduled_time_ ≤ l := not_lt.1 h1
    by_cases h2 : timer.scheduled_time_ ≤ entry.scheduled_time_
    · exact hco h1 (.inl h2) (insert_of_le h1 h2)
    have h2 : entry.scheduled_time_ < timer.scheduled_time_ := not_le.1 h2
    by_cases h3 : entry.scheduled_time_ < e
    · exact hskip h2 (insert_of_lt_earliest h1 h2 h3)
    have h3 : e ≤ entry.scheduled_time_ := not_lt.1 h3
    cases rest with
    | nil => exact hco h1 (.inr h3) (insert_singleton h1 h2 h3)
    | cons next rest =>
      by_cases h4 : next.scheduled_time_ ≤ timer.scheduled_time_
      · exact hskip h2 (insert_of_next_le h1 h2 h3 h4)
      have h4 : timer.scheduled_time_ < next.scheduled_time_ := not_le.1 h4
      by_cases h5 : next.scheduled_time_ < l ∧
          zx_time_sub_time next.scheduled_time_ timer.scheduled_time_ <
            zx_time_sub_time timer.scheduled_time_ entry.scheduled_time_
      · exact hskip h2 (insert_of_next_nearer h1 h2 h3 h4 h5.1 h5.2)
      · exact hco h1 (.inr h3)
          (insert_of_next_farther h1 h2 h3 h4 fun hnl hd => h5 ⟨hnl, hd⟩)

/-- A timer put between the parts of a sorted list, no earlier than the entries before it and no
later than those after it, keeps the list sorted. -/
theorem sorted_insert_between {pre post : List Timer} {x : Timer} (hs : Sorted (pre ++ post))
    (hpre : ∀ y ∈ pre, y.scheduled_time_ ≤ x.scheduled_time_)
    (hpost : ∀ y ∈ post, x.scheduled_time_ ≤ y.scheduled_time_) : Sorted (pre ++ x :: post) := by
  unfold Sorted at hs ⊢
  obtain ⟨hs_pre, hs_post, hs_cross⟩ := List.pairwise_append.1 hs
  refine List.pairwise_append.2 ⟨hs_pre, List.pairwise_cons.2 ⟨hpost, hs_post⟩, ?_⟩
  intro a ha b hb
  cases List.mem_cons.1 hb with
  | inl hb => rw [hb]; exact hpre a ha
  | inr hb => exact hs_cross a ha b hb

/-- In a sorted list every entry is at or after the first. -/
theorem Sorted.head_le {y z : Timer} {ts : List Timer} (hs : Sorted (y :: ts))
    (hz : z ∈ y :: ts) : y.scheduled_time_ ≤ z.scheduled_time_ := by
  cases List.mem_cons.1 hz with
  | inl hz => rw [hz]
  | inr hz => exact (List.pairwise_cons.1 hs).1 z hz

/-- In a sorted list every entry is at or before the last. -/
theorem Sorted.le_last {y z : Timer} {ts : List Timer} (hs : Sorted (ts ++ [y]))
    (hz : z ∈ ts ++ [y]) : z.scheduled_time_ ≤ y.scheduled_time_ := by
  cases List.mem_append.1 hz with
  | inl hz => exact (List.pairwise_append.1 hs).2.2 z hz y (List.mem_singleton_self y)
  | inr hz => rw [List.mem_singleton.1 hz]

/-- The walk keeps the list sorted. -/
theorem Placement.sorted {pre post : List Timer} {x : Timer}
    (hp : Placement timer e l pre post x) (hs : Sorted (pre ++ post))
    (htl : timer.scheduled_time_ ≤ l) : Sorted (pre ++ x :: post) := by
  cases hp with
  | alone hpre hpost =>
    apply sorted_insert_between hs
    · intro y hy
      exact le_of_lt (hpre y hy)
    · -- the entries after are at or after the first of them, which is past the window
      intro z hz
      cases post with
      | nil => cases hz
      | cons y ys =>
        have hy : l < y.scheduled_time_ := hpost y rfl
        have hyz : y.scheduled_time_ ≤ z.scheduled_time_ :=
          Sorted.head_le (List.pairwise_append.1 hs).2.1 hz
        show timer.scheduled_time_ ≤ z.scheduled_time_
        omega
  | @coalesced pre post entry _ _ =>
    apply sorted_insert_between hs
    · intro z hz
      show z.scheduled_time_ ≤ entry.scheduled_time_
      exact Sorted.le_last (List.pairwise_append.1 hs).1 hz
    · intro z hz
      exact (List.pairwise_append.1 hs).2.2 entry (by simp) z hz

/-- The timer's new time is in its window. -/
theorem Placement.window {pre post : List Timer} {x : Timer}
    (hp : Placement timer e l pre post x) (het : e ≤ timer.scheduled_time_)
    (htl : timer.scheduled_time_ ≤ l) : e ≤ x.scheduled_time_ ∧ x.scheduled_time_ ≤ l := by
  cases hp with
  | alone _ _ => exact ⟨het, htl⟩
  | coalesced hle hwin =>
    simp only [coalesce]
    cases hwin with
    | inl h => exact ⟨le_trans het h, hle⟩
    | inr h => exact ⟨h, hle⟩

/-- The slack is the distance the timer moved, as `zx_time_sub_time` computes it. -/
theorem Placement.slack_eq {pre post : List Timer} {x : Timer}
    (hp : Placement timer e l pre post x) :
    x.slack_ = zx_time_sub_time x.scheduled_time_ timer.scheduled_time_ := by
  cases hp with
  | alone _ _ => simp
  | coalesced _ _ => rfl

/-- With no entry of the walked part in the window, the timer keeps its time. -/
theorem Placement.eq_of_none_in_window {pre post : List Timer} {x : Timer}
    (hp : Placement timer e l pre post x) (het : e ≤ timer.scheduled_time_)
    (hnone : ∀ y ∈ pre, ¬ (e ≤ y.scheduled_time_ ∧ y.scheduled_time_ ≤ l)) :
    x.scheduled_time_ = timer.scheduled_time_ := by
  cases hp with
  | alone _ _ => rfl
  | @coalesced pre post entry hle hwin =>
    -- the entry coalesced with is in the window
    have hin : e ≤ entry.scheduled_time_ := by
      cases hwin with
      | inl h => exact le_trans het h
      | inr h => exact h
    exact absurd ⟨hin, hle⟩ (hnone entry (by simp))

end Walk

/-! ## The nearest timer -/

/-- `a` is at least as near to `t` as `b`, and not later than `b` when they are as near. -/
def Nearer (t a b : Int) : Prop := |a - t| ≤ |b - t| ∧ (|a - t| = |b - t| → a ≤ b)

/-- `c` is nearest to `t` among the times of the entries of `ts` in the window `[e, l]`, ties
going to the earlier. -/
def NearestIn (ts : List Timer) (e l t c : Int) : Prop :=
  ∀ y ∈ ts, e ≤ y.scheduled_time_ → y.scheduled_time_ ≤ l → Nearer t c y.scheduled_time_

theorem Nearer.refl (t a : Int) : Nearer t a a := ⟨le_refl _, fun _ => le_refl _⟩

theorem Nearer.trans {t a b c : Int} (hab : Nearer t a b) (hbc : Nearer t b c) : Nearer t a c := by
  refine ⟨le_trans hab.1 hbc.1, fun heq => ?_⟩
  have hab' : |a - t| = |b - t| := le_antisymm hab.1 (heq ▸ hbc.1)
  have hbc' : |b - t| = |c - t| := le_antisymm hbc.1 (heq ▸ hab.1)
  exact le_trans (hab.2 hab') (hbc.2 hbc')

theorem nearer_of_abs_lt {t a b : Int} (h : |a - t| < |b - t|) : Nearer t a b :=
  ⟨le_of_lt h, fun heq => absurd heq (ne_of_lt h)⟩

theorem NearestIn.cons {ts : List Timer} {y : Timer} {e l t c : Int} (h : NearestIn ts e l t c)
    (hy : e ≤ y.scheduled_time_ → y.scheduled_time_ ≤ l → Nearer t c y.scheduled_time_) :
    NearestIn (y :: ts) e l t c := by
  intro z hz
  cases List.mem_cons.1 hz with
  | inl hz => rw [hz]; exact hy
  | inr hz => exact h z hz

section Nearest

variable {timer x : Timer} {e l : Int} {ts : List Timer}

/-- An entry at or after `t`, first in a sorted list, is nearest among them. -/
theorem nearestIn_of_le (hs : Sorted (x :: ts)) (hxt : timer.scheduled_time_ ≤ x.scheduled_time_) :
    NearestIn (x :: ts) e l timer.scheduled_time_ x.scheduled_time_ := by
  intro y hy _ _
  have hxy : x.scheduled_time_ ≤ y.scheduled_time_ := Sorted.head_le hs hy
  refine ⟨?_, fun _ => hxy⟩
  rw [abs_of_nonneg (by omega), abs_of_nonneg (by omega)]
  omega

/-- An entry before `t` is nearest when every other entry of the window is after `t` and at
least as far from it. -/
theorem nearestIn_of_lt (hxt : x.scheduled_time_ < timer.scheduled_time_)
    (hfar : ∀ y ∈ ts, e ≤ y.scheduled_time_ → y.scheduled_time_ ≤ l →
      timer.scheduled_time_ < y.scheduled_time_ ∧
        timer.scheduled_time_ - x.scheduled_time_ ≤ y.scheduled_time_ - timer.scheduled_time_) :
    NearestIn (x :: ts) e l timer.scheduled_time_ x.scheduled_time_ := by
  refine NearestIn.cons ?_ fun _ _ => Nearer.refl _ _
  intro y hy hey hyl
  obtain ⟨hty, hd⟩ := hfar y hy hey hyl
  refine ⟨?_, fun _ => by omega⟩
  rw [abs_of_neg (by omega), abs_of_pos (by omega)]
  omega

/-- From the first entry of the window on, the walk coalesces with an entry of the window. That
entry is nearest to the timer's time when the window reaches at least as far after it as before
it, or not past it at all. The distances must be `int64_t`s for `zx_time_sub_time` to compute
them. -/
theorem insert_coalesces {rest : List Timer} (hs : Sorted (x :: rest))
    (hex : e ≤ x.scheduled_time_) (hxl : x.scheduled_time_ ≤ l)
    (htl : timer.scheduled_time_ ≤ l) (hte : timer.scheduled_time_ - e ≤ ZX_TIME_INFINITE)
    (hlt : l - timer.scheduled_time_ ≤ ZX_TIME_INFINITE) :
    ∃ pre c post, x :: rest = pre ++ c :: post ∧
      TimerQueue.Insert timer e l (x :: rest) = pre ++ c :: coalesce c timer :: post ∧
      e ≤ c.scheduled_time_ ∧ c.scheduled_time_ ≤ l ∧
      (l = timer.scheduled_time_ ∨ timer.scheduled_time_ - e ≤ l - timer.scheduled_time_ →
        NearestIn (x :: rest) e l timer.scheduled_time_ c.scheduled_time_) := by
  induction rest generalizing x with
  | nil =>
    by_cases hxt : timer.scheduled_time_ ≤ x.scheduled_time_
    · exact ⟨[], x, [], rfl, insert_of_le hxl hxt, hex, hxl, fun _ => nearestIn_of_le hs hxt⟩
    · exact ⟨[], x, [], rfl, insert_singleton hxl (not_le.1 hxt) hex, hex, hxl,
        fun _ => nearestIn_of_lt (not_le.1 hxt) (by simp)⟩
  | cons n rest ih =>
    by_cases hxt : timer.scheduled_time_ ≤ x.scheduled_time_
    · exact ⟨[], x, n :: rest, rfl, insert_of_le hxl hxt, hex, hxl,
        fun _ => nearestIn_of_le hs hxt⟩
    have hxt : x.scheduled_time_ < timer.scheduled_time_ := not_le.1 hxt
    have hxn : x.scheduled_time_ ≤ n.scheduled_time_ := Sorted.head_le hs (by simp)
    have hdx : |x.scheduled_time_ - timer.scheduled_time_| =
        timer.scheduled_time_ - x.scheduled_time_ := by
      rw [abs_of_neg (by omega)]
      ring
    -- the walk goes on to `n`, an entry of the window nearer than `x`
    have hskip (hnl : n.scheduled_time_ ≤ l)
        (hnx : Nearer timer.scheduled_time_ n.scheduled_time_ x.scheduled_time_)
        (hstep : TimerQueue.Insert timer e l (x :: n :: rest) =
          x :: TimerQueue.Insert timer e l (n :: rest)) :
        ∃ pre c post, x :: n :: rest = pre ++ c :: post ∧
          TimerQueue.Insert timer e l (x :: n :: rest) = pre ++ c :: coalesce c timer :: post ∧
          e ≤ c.scheduled_time_ ∧ c.scheduled_time_ ≤ l ∧
          (l = timer.scheduled_time_ ∨ timer.scheduled_time_ - e ≤ l - timer.scheduled_time_ →
            NearestIn (x :: n :: rest) e l timer.scheduled_time_ c.scheduled_time_) := by
      obtain ⟨pre, c, post, hsplit, hins, hce, hcl, hnear⟩ :=
        ih (List.pairwise_cons.1 hs).2 (le_trans hex hxn) hnl
      refine ⟨x :: pre, c, post, by rw [hsplit]; rfl, by rw [hstep, hins]; rfl, hce, hcl,
        fun hwide => (hnear hwide).cons fun _ _ => ?_⟩
      exact Nearer.trans (hnear hwide n (by simp) (le_trans hex hxn) hnl) hnx
    by_cases hnt : n.scheduled_time_ ≤ timer.scheduled_time_
    · -- `n` lies between `x` and the timer's time
      have hdn : |n.scheduled_time_ - timer.scheduled_time_| =
          timer.scheduled_time_ - n.scheduled_time_ := by
        rw [abs_of_nonpos (by omega)]
        ring
      refine hskip (le_trans hnt htl) ⟨?_, fun heq => ?_⟩ (insert_of_next_le hxl hxt hex hnt)
      · rw [hdx, hdn]
        omega
      · rw [hdx, hdn] at heq
        omega
    have hnt : timer.scheduled_time_ < n.scheduled_time_ := not_le.1 hnt
    -- the two distances the walk compares are computed exactly
    have hdn_eq (hnl : n.scheduled_time_ < l) :
        zx_time_sub_time n.scheduled_time_ timer.scheduled_time_ =
          n.scheduled_time_ - timer.scheduled_time_ :=
      zx_time_sub_time_of_pos hnt (by omega)
    have hdx_eq : zx_time_sub_time timer.scheduled_time_ x.scheduled_time_ =
        timer.scheduled_time_ - x.scheduled_time_ :=
      zx_time_sub_time_of_pos hxt (by omega)
    by_cases hnear : n.scheduled_time_ < l ∧
        zx_time_sub_time n.scheduled_time_ timer.scheduled_time_ <
          zx_time_sub_time timer.scheduled_time_ x.scheduled_time_
    · obtain ⟨hnl, hd⟩ := hnear
      refine hskip (le_of_lt hnl) (nearer_of_abs_lt ?_)
        (insert_of_next_nearer hxl hxt hex hnt hnl hd)
      rw [hdn_eq hnl, hdx_eq] at hd
      rw [hdx, abs_of_pos (by omega)]
      exact hd
    · -- coalesce with `x`: every later entry of the window is after the timer's time and at
      -- least as far from it
      refine ⟨[], x, n :: rest, rfl,
        insert_of_next_farther hxl hxt hex hnt fun hnl hd => hnear ⟨hnl, hd⟩, hex, hxl,
        fun hwide => nearestIn_of_lt hxt ?_⟩
      intro y hy hey hyl
      have hny : n.scheduled_time_ ≤ y.scheduled_time_ :=
        Sorted.head_le (List.pairwise_cons.1 hs).2 hy
      refine ⟨by omega, ?_⟩
      by_cases hnl : n.scheduled_time_ < l
      · -- the walk compared the distances
        have hd : ¬ n.scheduled_time_ - timer.scheduled_time_ <
            timer.scheduled_time_ - x.scheduled_time_ := by
          rw [← hdn_eq hnl, ← hdx_eq]
          exact fun hd => hnear ⟨hnl, hd⟩
        omega
      · -- `n`, and so `y`, is at `latest_deadline`, where the walk compares nothing
        cases hwide with
        | inl h => omega
        | inr h => omega

/-- With the whole queue sorted and an entry in the window, the walk coalesces with an entry of
the window: it walks past the entries before the window to the first entry in it. -/
theorem insert_coalesces_of_mem (hs : Sorted ts)
    (hmem : ∃ y ∈ ts, e ≤ y.scheduled_time_ ∧ y.scheduled_time_ ≤ l)
    (het : e ≤ timer.scheduled_time_) (htl : timer.scheduled_time_ ≤ l)
    (hte : timer.scheduled_time_ - e ≤ ZX_TIME_INFINITE)
    (hlt : l - timer.scheduled_time_ ≤ ZX_TIME_INFINITE) :
    ∃ pre c post, ts = pre ++ c :: post ∧
      TimerQueue.Insert timer e l ts = pre ++ c :: coalesce c timer :: post ∧
      e ≤ c.scheduled_time_ ∧ c.scheduled_time_ ≤ l ∧
      (l = timer.scheduled_time_ ∨ timer.scheduled_time_ - e ≤ l - timer.scheduled_time_ →
        NearestIn ts e l timer.scheduled_time_ c.scheduled_time_) := by
  induction ts with
  | nil =>
    obtain ⟨y, hy, _⟩ := hmem
    cases hy
  | cons x rest ih =>
    obtain ⟨y, hy, hey, hyl⟩ := hmem
    have hxy : x.scheduled_time_ ≤ y.scheduled_time_ := Sorted.head_le hs hy
    by_cases hex : e ≤ x.scheduled_time_
    · exact insert_coalesces hs hex (le_trans hxy hyl) htl hte hlt
    -- `x` is before the window, so the entry in it is further on
    have hxe : x.scheduled_time_ < e := not_le.1 hex
    have hy' : y ∈ rest := by
      cases List.mem_cons.1 hy with
      | inl h => rw [h] at hey; omega
      | inr h => exact h
    obtain ⟨pre, c, post, hsplit, hins, hce, hcl, hnear⟩ :=
      ih (List.pairwise_cons.1 hs).2 ⟨y, hy', hey, hyl⟩
    refine ⟨x :: pre, c, post, by rw [hsplit]; rfl, ?_, hce, hcl,
      fun hwide => (hnear hwide).cons fun hex' _ => absurd hex' hex⟩
    rw [insert_of_lt_earliest (by omega) (by omega) hxe, hins]
    rfl

end Nearest

/-! ## `Timer::Set` -/

theorem zx_time_sub_duration_eq {w a : Int} (hw : IsTime w) (ha : IsTime a) (ha0 : 0 ≤ a) :
    zx_time_sub_duration w a = max ZX_TIME_INFINITE_PAST (w - a) := by
  obtain ⟨hw1, hw2⟩ := hw
  obtain ⟨_, ha2⟩ := ha
  unfold ZX_TIME_INFINITE ZX_TIME_INFINITE_PAST at *
  rw [zx_time_sub_duration, saturate_eq (by omega) (by omega)]
  unfold ZX_TIME_INFINITE ZX_TIME_INFINITE_PAST
  omega

theorem zx_time_add_duration_eq {w a : Int} (hw : IsTime w) (ha : IsTime a) (ha0 : 0 ≤ a) :
    zx_time_add_duration w a = min ZX_TIME_INFINITE (w + a) := by
  obtain ⟨hw1, hw2⟩ := hw
  obtain ⟨_, ha2⟩ := ha
  unfold ZX_TIME_INFINITE ZX_TIME_INFINITE_PAST at *
  rw [zx_time_add_duration, saturate_eq (by omega) (by omega)]
  unfold ZX_TIME_INFINITE ZX_TIME_INFINITE_PAST
  omega

namespace Deadline

variable {d : Deadline}

/-- The window holds `when`, and reaches at most the slack's amount to either side. -/
theorem Valid.window (hd : d.Valid) :
    d.earliest ≤ d.when_ ∧ d.when_ ≤ d.latest ∧ d.when_ - d.earliest ≤ d.slack_.amount_ ∧
      d.latest - d.when_ ≤ d.slack_.amount_ := by
  have hsub := zx_time_sub_duration_eq hd.when_isTime hd.amount_isTime hd.amount_nonneg
  have hadd := zx_time_add_duration_eq hd.when_isTime hd.amount_isTime hd.amount_nonneg
  have ha := hd.amount_nonneg
  obtain ⟨hw1, hw2⟩ := hd.when_isTime
  unfold ZX_TIME_INFINITE ZX_TIME_INFINITE_PAST at *
  cases hm : d.slack_.mode_ with
  | TIMER_SLACK_CENTER => simp only [earliest, latest, hm, hsub, hadd]; omega
  | TIMER_SLACK_EARLY => simp only [earliest, latest, hm, hsub]; omega
  | TIMER_SLACK_LATE => simp only [earliest, latest, hm, hadd]; omega

/-- Unless a centred slack saturates at `ZX_TIME_INFINITE`, the window reaches at least as far
after `when` as before it, or not past it at all. -/
theorem Valid.wide (hd : d.Valid)
    (h : d.slack_.mode_ ≠ .TIMER_SLACK_CENTER ∨ d.when_ + d.slack_.amount_ ≤ ZX_TIME_INFINITE) :
    d.latest = d.when_ ∨ d.when_ - d.earliest ≤ d.latest - d.when_ := by
  have hsub := zx_time_sub_duration_eq hd.when_isTime hd.amount_isTime hd.amount_nonneg
  have hadd := zx_time_add_duration_eq hd.when_isTime hd.amount_isTime hd.amount_nonneg
  have ha := hd.amount_nonneg
  obtain ⟨hw1, hw2⟩ := hd.when_isTime
  unfold ZX_TIME_INFINITE ZX_TIME_INFINITE_PAST at *
  cases hm : d.slack_.mode_ with
  | TIMER_SLACK_CENTER =>
    simp only [hm, ne_eq, not_true_eq_false, false_or] at h
    simp only [earliest, latest, hm, hsub, hadd]
    right
    omega
  | TIMER_SLACK_EARLY => exact .inl (by simp [latest, hm])
  | TIMER_SLACK_LATE =>
    simp only [earliest, latest, hm, hadd]
    right
    omega

end Deadline

section Set

variable {timer : Timer} {ts : List Timer} {d : Deadline} {currently_active cancel_ : Bool}

/-- Unless the timer was cancelled from its own callback, `Set` is `Insert` with the window of
the deadline. -/
theorem Timer.set_eq (hact : currently_active = false ∨ cancel_ = false) :
    timer.Set ts d currently_active cancel_ =
      TimerQueue.Insert { timer with scheduled_time_ := d.when_ } d.earliest d.latest ts := by
  cases hact with
  | inl h => simp [Timer.Set, h]
  | inr h => simp [Timer.Set, h]

/-- Within the window the slack is the exact distance the timer moved. -/
theorem Deadline.Valid.sub_when {s : Int} (hd : d.Valid) (hes : d.earliest ≤ s)
    (hsl : s ≤ d.latest) : zx_time_sub_time s d.when_ = s - d.when_ := by
  obtain ⟨_, _, hlo, hhi⟩ := hd.window
  obtain ⟨_, ha2⟩ := hd.amount_isTime
  apply saturate_of_isTime
  unfold IsTime ZX_TIME_INFINITE ZX_TIME_INFINITE_PAST at *
  constructor <;> omega

/-- What `Timer::Set` does to a sorted queue, for every deadline: the timer goes between two
parts of the queue, which stays sorted, at a time `s` of its window with slack `s - when`; and
`s` is `when` itself when no queued timer is in the window. -/
theorem Timer.set_spec (hd : d.Valid) (hs : Sorted ts)
    (hact : currently_active = false ∨ cancel_ = false) :
    ∃ pre post s, ts = pre ++ post ∧
      timer.Set ts d currently_active cancel_ = pre ++ ⟨s, s - d.when_⟩ :: post ∧
      Sorted (timer.Set ts d currently_active cancel_) ∧ d.earliest ≤ s ∧ s ≤ d.latest ∧
      ((∀ y ∈ ts, ¬ (d.earliest ≤ y.scheduled_time_ ∧ y.scheduled_time_ ≤ d.latest)) →
        s = d.when_) := by
  obtain ⟨het, htl, _, _⟩ := hd.window
  obtain ⟨pre, post, x, hsplit, hins, hp⟩ :=
    @insert_placement { timer with scheduled_time_ := d.when_ } d.earliest d.latest ts
  obtain ⟨hex, hxl⟩ := hp.window het htl
  have hslack : x.slack_ = x.scheduled_time_ - d.when_ := by
    rw [hp.slack_eq]
    exact hd.sub_when hex hxl
  refine ⟨pre, post, x.scheduled_time_, hsplit, ?_, ?_, hex, hxl, fun hnone => ?_⟩
  · rw [Timer.set_eq hact, hins, ← hslack]
  · rw [Timer.set_eq hact, hins]
    exact hp.sorted (hsplit ▸ hs) htl
  · exact hp.eq_of_none_in_window het fun y hy => hnone y (hsplit ▸ List.mem_append_left post hy)

/-- Timers at 10 and 30, and a deadline at 20 with a centred slack of 5: no timer is in
`[15, 25]`, and the timer goes between the two at 20. -/
theorem Timer.set_spec_between :
    ∃ pre post s, [⟨10, 0⟩, ⟨30, 0⟩] = pre ++ post ∧
      Timer.Set ⟨0, 0⟩ [⟨10, 0⟩, ⟨30, 0⟩] ⟨20, ⟨5, .TIMER_SLACK_CENTER⟩⟩ false false =
        pre ++ ⟨s, s - 20⟩ :: post ∧
      Sorted (Timer.Set ⟨0, 0⟩ [⟨10, 0⟩, ⟨30, 0⟩] ⟨20, ⟨5, .TIMER_SLACK_CENTER⟩⟩ false false) ∧
      Deadline.earliest ⟨20, ⟨5, .TIMER_SLACK_CENTER⟩⟩ ≤ s ∧ s ≤ Deadline.latest ⟨20, ⟨5, .TIMER_SLACK_CENTER⟩⟩ ∧
      ((∀ y ∈ [(⟨10, 0⟩ : Timer), ⟨30, 0⟩], ¬ (Deadline.earliest ⟨20, ⟨5, .TIMER_SLACK_CENTER⟩⟩ ≤ y.scheduled_time_ ∧
        y.scheduled_time_ ≤ Deadline.latest ⟨20, ⟨5, .TIMER_SLACK_CENTER⟩⟩)) → s = 20) :=
  Timer.set_spec ⟨by decide, by decide, by decide⟩ (by decide) (.inl rfl)

/-- When a queued timer is in the window, `Timer::Set` coalesces with one of them: the timer
goes right after it, with its time. It is the one nearest to `when`, ties going to the earlier,
unless a centred slack saturates at `ZX_TIME_INFINITE`. -/
theorem Timer.set_coalesces (hd : d.Valid) (hs : Sorted ts)
    (hact : currently_active = false ∨ cancel_ = false)
    (hmem : ∃ y ∈ ts, d.earliest ≤ y.scheduled_time_ ∧ y.scheduled_time_ ≤ d.latest) :
    ∃ pre c post, ts = pre ++ c :: post ∧
      timer.Set ts d currently_active cancel_ =
        pre ++ c :: ⟨c.scheduled_time_, c.scheduled_time_ - d.when_⟩ :: post ∧
      d.earliest ≤ c.scheduled_time_ ∧ c.scheduled_time_ ≤ d.latest ∧
      (d.slack_.mode_ ≠ .TIMER_SLACK_CENTER ∨ d.when_ + d.slack_.amount_ ≤ ZX_TIME_INFINITE →
        NearestIn ts d.earliest d.latest d.when_ c.scheduled_time_) := by
  obtain ⟨het, htl, hlo, hhi⟩ := hd.window
  obtain ⟨_, ha2⟩ := hd.amount_isTime
  have hte : d.when_ - d.earliest ≤ ZX_TIME_INFINITE := by omega
  have hlt : d.latest - d.when_ ≤ ZX_TIME_INFINITE := by omega
  obtain ⟨pre, c, post, hsplit, hins, hce, hcl, hnear⟩ :=
    @insert_coalesces_of_mem { timer with scheduled_time_ := d.when_ } d.earliest d.latest ts hs
      hmem het htl hte hlt
  refine ⟨pre, c, post, hsplit, ?_, hce, hcl, fun hwide => hnear (hd.wide hwide)⟩
  rw [Timer.set_eq hact, hins]
  simp only [coalesce]
  rw [hd.sub_when hce hcl]

/-- Timers at 10 and 30, and a deadline at 20 with a centred slack of 15: both timers are in
`[5, 35]`, and the timer is coalesced with one of them, the nearest to 20. -/
theorem Timer.set_coalesces_window :
    ∃ pre c post, [⟨10, 0⟩, ⟨30, 0⟩] = pre ++ c :: post ∧
      Timer.Set ⟨0, 0⟩ [⟨10, 0⟩, ⟨30, 0⟩] ⟨20, ⟨15, .TIMER_SLACK_CENTER⟩⟩ false false =
        pre ++ c :: ⟨c.scheduled_time_, c.scheduled_time_ - 20⟩ :: post ∧
      Deadline.earliest ⟨20, ⟨15, .TIMER_SLACK_CENTER⟩⟩ ≤ c.scheduled_time_ ∧
      c.scheduled_time_ ≤ Deadline.latest ⟨20, ⟨15, .TIMER_SLACK_CENTER⟩⟩ ∧
      ((TimerSlack.mode_ ⟨15, .TIMER_SLACK_CENTER⟩) ≠ .TIMER_SLACK_CENTER ∨ 20 + 15 ≤ ZX_TIME_INFINITE →
        NearestIn [⟨10, 0⟩, ⟨30, 0⟩] (Deadline.earliest ⟨20, ⟨15, .TIMER_SLACK_CENTER⟩⟩)
          (Deadline.latest ⟨20, ⟨15, .TIMER_SLACK_CENTER⟩⟩) 20 c.scheduled_time_) :=
  Timer.set_coalesces ⟨by decide, by decide, by decide⟩ (by decide) (.inl rfl) (by decide)

end Set

end Zircon.Kernel

namespace Zircon.Kernel

/-- A queue with timers at `ZX_TIME_INFINITE - 11` and at `ZX_TIME_INFINITE`. -/
def queueAtInfinity : List Timer := [⟨ZX_TIME_INFINITE - 11, 0⟩, ⟨ZX_TIME_INFINITE, 0⟩]

/-- `when` one before `ZX_TIME_INFINITE`, with a centred slack of 10. -/
def deadlineBeforeInfinity : Deadline := ⟨ZX_TIME_INFINITE - 1, ⟨10, .TIMER_SLACK_CENTER⟩⟩

/-- At the top of the time line `Insert` coalesces with the farther timer. The window
`[when - 10, ZX_TIME_INFINITE]` is cut short by saturation; the queued timer at
`ZX_TIME_INFINITE` is 1 away from `when`, but it sits at `latest_deadline`, where the walk
compares no distance, so the timer is coalesced with the one 10 away. -/
theorem set_coalesces_with_farther_timer :
    Sorted queueAtInfinity ∧ deadlineBeforeInfinity.Valid ∧
      Timer.Set ⟨0, 0⟩ queueAtInfinity deadlineBeforeInfinity false false =
        [⟨ZX_TIME_INFINITE - 11, 0⟩, ⟨ZX_TIME_INFINITE - 11, -10⟩, ⟨ZX_TIME_INFINITE, 0⟩] ∧
      ¬ NearestIn queueAtInfinity deadlineBeforeInfinity.earliest deadlineBeforeInfinity.latest
        deadlineBeforeInfinity.when_ (ZX_TIME_INFINITE - 11) := by
  refine ⟨by decide, ⟨by decide, by decide, by decide⟩, by decide, fun hnear => ?_⟩
  -- the queued timer at `ZX_TIME_INFINITE` is in the window, and nearer
  have hfar := (hnear ⟨ZX_TIME_INFINITE, 0⟩ (by simp [queueAtInfinity]) (by decide)
    (by decide)).1
  revert hfar
  decide

end Zircon.Kernel
