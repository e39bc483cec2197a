import Mathlib
import Jvm.Heap.Monitor

/-! # Monitors and their histories

The history of a monitor is what threads asked of it and how it was answered. Who holds the monitor, and how
often, can be told from the history alone: an exit leaves the last entry that has not been left yet, as brackets
match (`Nested`), and the monitor gets free with the exit that leaves the entry by which it was taken
(`Held.exists_first`). `lawful` says all of this after any calls of any threads, and that a count of a fixed width
counts as well as long as the entries are nested less deeply than it can count. -/

namespace Jvm.Monitor

/-! ### Histories -/

/-- What a thread asks of a monitor. -/
inductive Call where
  | enter (thread : Nat)
  | exit (thread : Nat)
deriving DecidableEq, Repr

/-- A call with its answer. -/
inductive Event where
  | enter (thread : Nat) (entered : Bool)
  | exit (thread : Nat) (freed : Option Bool)
deriving DecidableEq, Repr

namespace Event

/-- Whether a thread enters. -/
def enters (t : Nat) : Event → Bool
  | enter u entered => u == t && entered
  | exit _ _ => false

/-- Whether a thread leaves. -/
def leaves (t : Nat) : Event → Bool
  | enter _ _ => false
  | exit u freed => u == t && freed.isSome

/-- Whether the monitor gets free. -/
def frees : Event → Bool
  | enter _ _ => false
  | exit _ freed => freed == some true

/-- Whether nobody enters or leaves. -/
def idle : Event → Bool
  | enter _ entered => !entered
  | exit _ freed => freed.isNone

theorem enters_of_idle {e : Event} (he : e.idle) (t : Nat) : e.enters t = false := by
  cases e <;> simp_all [idle, enters]

theorem leaves_of_idle {e : Event} (he : e.idle) (t : Nat) : e.leaves t = false := by
  cases e <;> simp_all [idle, leaves]

theorem frees_of_idle {e : Event} (he : e.idle) : e.frees = false := by
  cases e <;> simp_all [idle, frees]

end Event

/-- How a monitor answers a call. -/
def answer (m : Monitor) : Call → Event
  | .enter t => .enter t (m.enter? t).isSome
  | .exit t => .exit t ((m.exit? t).map isFree)

/-- The monitor after a call. -/
def perform (m : Monitor) : Call → Monitor
  | .enter t => (m.enter? t).getD m
  | .exit t => (m.exit? t).getD m

/-- A new monitor after calls. -/
def after (calls : List Call) : Monitor := calls.foldl perform free

/-- The calls with the answers that a monitor gives to them. -/
def answers (m : Monitor) : List Call → List Event
  | [] => []
  | c :: rest => m.answer c :: (m.perform c).answers rest

/-- The history of a new monitor that calls are made on. -/
def history (calls : List Call) : List Event := free.answers calls

theorem after_concat (calls : List Call) (c : Call) : after (calls ++ [c]) = (after calls).perform c := by
  rw [after, List.foldl_append]
  rfl

theorem answers_append (m : Monitor) (calls more : List Call) :
    m.answers (calls ++ more) = m.answers calls ++ (calls.foldl perform m).answers more := by
  induction calls generalizing m with
  | nil => rfl
  | cons c rest ih => rw [List.cons_append, answers, ih, answers, List.cons_append, List.foldl_cons]

theorem history_concat (calls : List Call) (c : Call) :
    history (calls ++ [c]) = history calls ++ [(after calls).answer c] :=
  answers_append ..

theorem history_append (calls more : List Call) : history calls <+: history (calls ++ more) :=
  ⟨_, (answers_append ..).symm⟩

/-! ### What a call can do -/

/-- How a monitor can answer a call, and what becomes of it. -/
inductive Step (m : Monitor) : Call → Event → Monitor → Prop
  | taken (t : Nat) (hfree : m.owner = none) : Step m (.enter t) (.enter t true) ⟨some t, 1⟩
  | again (t : Nat) (howner : m.owner = some t) : Step m (.enter t) (.enter t true) ⟨some t, m.count + 1⟩
  | refused (t u : Nat) (howner : m.owner = some u) (hne : u ≠ t) : Step m (.enter t) (.enter t false) m
  | left (t : Nat) (howner : m.owner = some t) (hcount : 1 < m.count) :
      Step m (.exit t) (.exit t (some false)) ⟨some t, m.count - 1⟩
  | freed (t : Nat) (howner : m.owner = some t) (hcount : m.count ≤ 1) : Step m (.exit t) (.exit t (some true)) free
  | stray (t : Nat) (howner : m.owner ≠ some t) : Step m (.exit t) (.exit t none) m

theorem step (m : Monitor) (c : Call) : Step m c (m.answer c) (m.perform c) := by
  obtain ⟨owner, count⟩ := m
  cases c with
  | enter t =>
    cases owner with
    | none => exact .taken t rfl
    | some u =>
      by_cases hu : u = t
      · subst hu
        simpa [answer, perform, enter?] using Step.again u rfl
      · simpa [answer, perform, enter?, hu] using Step.refused t u rfl hu
  | exit t =>
    by_cases howner : owner = some t
    · subst howner
      by_cases hcount : count ≤ 1
      · simpa [answer, perform, exit?, hcount, isFree, free] using Step.freed t rfl hcount
      · simpa [answer, perform, exit?, hcount, isFree] using Step.left t rfl (not_le.1 hcount)
    · simpa [answer, perform, exit?, howner] using Step.stray t howner

/-! ### What a history tells -/

section

variable {t u : Nat} {e : Event} {h h' : List Event}

/-- How often a thread has entered. -/
def entries (t : Nat) (h : List Event) : Nat := h.countP (·.enters t)

/-- How often a thread has left. -/
def exits (t : Nat) (h : List Event) : Nat := h.countP (·.leaves t)

/-- Whether a thread has entered more often than it has left. -/
def Holds (h : List Event) (t : Nat) : Prop := exits t h < entries t h

/-- Whether each thread has left as often as it has entered. -/
def Settled (h : List Event) : Prop := ∀ t, entries t h = exits t h

/-- What has been done since the monitor was free for the last time. -/
def sinceFree (h : List Event) : List Event := h.rtakeWhile fun e => !e.frees

/-- Whether each entry is left again, the last one first. -/
inductive Nested : List Event → Prop
  | nil : Nested []
  | idle {e : Event} {rest : List Event} (he : e.idle) (hrest : Nested rest) : Nested (e :: rest)
  | pair {t : Nat} {freed : Bool} {inner rest : List Event} (hinner : Nested inner) (hrest : Nested rest) :
      Nested (.enter t true :: (inner ++ .exit t (some freed) :: rest))

/-- Whether a thread holds the monitor by a number of entries that it has not left yet: the first one when nobody
held it. -/
inductive Held (t : Nat) : Nat → List Event → Prop
  | first {before inner : List Event} (hbefore : Settled before) (hinner : Nested inner) :
      Held t 1 (before ++ .enter t true :: inner)
  | again {n : Nat} {before inner : List Event} (hbefore : Held t n before) (hinner : Nested inner) :
      Held t (n + 1) (before ++ .enter t true :: inner)

@[simp] theorem entries_append : entries t (h ++ h') = entries t h + entries t h' := List.countP_append

@[simp] theorem exits_append : exits t (h ++ h') = exits t h + exits t h' := List.countP_append

theorem entries_cons : entries t (e :: h) = entries t h + if e.enters t then 1 else 0 := List.countP_cons

theorem exits_cons : exits t (e :: h) = exits t h + if e.leaves t then 1 else 0 := List.countP_cons

@[simp] theorem entries_nil : entries t [] = 0 := rfl

@[simp] theorem exits_nil : exits t [] = 0 := rfl

@[simp] theorem entries_enter : entries t (.enter u true :: h) = entries t h + if u = t then 1 else 0 := by
  simp [entries_cons, Event.enters]

@[simp] theorem exits_enter {entered : Bool} : exits t (.enter u entered :: h) = exits t h := exits_cons

@[simp] theorem entries_exit {freed : Option Bool} : entries t (.exit u freed :: h) = entries t h := entries_cons

@[simp] theorem exits_exit {freed : Bool} :
    exits t (.exit u (some freed) :: h) = exits t h + if u = t then 1 else 0 := by
  simp [exits_cons, Event.leaves]

theorem entries_idle (he : e.idle) : entries t (e :: h) = entries t h := by
  rw [entries_cons, Event.enters_of_idle he, if_neg Bool.false_ne_true, Nat.add_zero]

theorem exits_idle (he : e.idle) : exits t (e :: h) = exits t h := by
  rw [exits_cons, Event.leaves_of_idle he, if_neg Bool.false_ne_true, Nat.add_zero]

theorem sinceFree_freed (h : List Event) (he : e.frees = true) : sinceFree (h ++ [e]) = [] :=
  List.rtakeWhile_concat_neg _ _ _ (by simp [he])

theorem sinceFree_kept (h : List Event) (he : e.frees = false) : sinceFree (h ++ [e]) = sinceFree h ++ [e] :=
  List.rtakeWhile_concat_pos _ _ _ (by simp [he])

theorem Settled.idle (hh : Settled h) (he : e.idle) : Settled (h ++ [e]) := by
  intro t
  simpa [entries_idle he, exits_idle he] using hh t

theorem Nested.settled (hh : Nested h) : Settled h := by
  induction hh with
  | nil => exact fun _ => rfl
  | idle he _ ih =>
    intro t
    rw [entries_idle he, exits_idle he]
    exact ih t
  | pair _ _ ihinner ihrest =>
    intro u
    have hinner := ihinner u
    have hrest := ihrest u
    simp only [entries_enter, entries_append, entries_exit, exits_enter, exits_append, exits_exit]
    omega

theorem Nested.append (hh : Nested h) (hh' : Nested h') : Nested (h ++ h') := by
  induction hh with
  | nil => exact hh'
  | idle he _ ih => exact .idle he ih
  | pair hinner _ _ ih =>
    rw [List.cons_append, List.append_assoc, List.cons_append]
    exact .pair hinner ih

theorem Held.nested {n : Nat} (hh : Held t n h) (hh' : Nested h') : Held t n (h ++ h') := by
  cases hh with
  | first hbefore hinner =>
    rw [List.append_assoc]
    exact .first hbefore (hinner.append hh')
  | again hbefore hinner =>
    rw [List.append_assoc]
    exact .again hbefore (hinner.append hh')

theorem Held.idle {n : Nat} (hh : Held t n h) (he : e.idle) : Held t n (h ++ [e]) :=
  hh.nested (.idle he .nil)

theorem Held.pos {n : Nat} (hh : Held t n h) : 0 < n := by
  cases hh <;> exact Nat.succ_pos _

/-- The thread leaves the last entry that it has not left yet. -/
theorem Held.left {n : Nat} (hh : Held t (n + 1) h) (hn : 0 < n) (freed : Bool) :
    Held t n (h ++ [.exit t (some freed)]) := by
  cases hh with
  | first => exact absurd hn (lt_irrefl 0)
  | again hbefore hinner =>
    rw [List.append_assoc]
    exact hbefore.nested (.pair hinner .nil)

/-- The entries that a thread holds the monitor by are those it has not left. -/
theorem Held.entries_eq {n : Nat} (hh : Held t n h) (u : Nat) :
    entries u h = exits u h + if t = u then n else 0 := by
  induction hh with
  | first hbefore hinner =>
    have hbefore := hbefore u
    have hinner := hinner.settled u
    simp only [entries_append, exits_append, entries_enter, exits_enter]
    omega
  | again _ hinner ih =>
    have hinner := hinner.settled u
    simp only [entries_append, exits_append, entries_enter, exits_enter]
    split_ifs at ih ⊢ <;> omega

/-- One entry that has not been left is the one that took the monitor. -/
theorem Held.exists_first (hh : Held t 1 h) :
    ∃ before inner, h = before ++ .enter t true :: inner ∧ Settled before ∧ Nested inner := by
  cases hh with
  | first hbefore hinner => exact ⟨_, _, rfl, hbefore, hinner⟩
  | again hbefore => exact absurd hbefore.pos (lt_irrefl 0)

end

/-! ### The state and the history -/

/-- Whether a monitor is as its history tells. -/
structure Tracks (h : List Event) (m : Monitor) : Prop where
  free : m.owner = none → m = .free ∧ Settled h
  held : ∀ t, m.owner = some t → Held t m.count h
  since : ∀ u, entries u (sinceFree h) = exits u (sinceFree h) + if m.owner = some u then m.count else 0

theorem tracks_free : Tracks [] free :=
  ⟨fun _ => ⟨rfl, fun _ => rfl⟩, fun _ h => (by cases h), fun _ => rfl⟩

namespace Tracks

variable {h : List Event} {m : Monitor}

/-- A call that changes nothing. -/
theorem idle (hm : Tracks h m) {e : Event} (he : e.idle) : Tracks (h ++ [e]) m := by
  refine ⟨fun hfree => ⟨(hm.free hfree).1, (hm.free hfree).2.idle he⟩, fun t ht => (hm.held t ht).idle he, ?_⟩
  intro u
  rw [sinceFree_kept h (Event.frees_of_idle he)]
  simpa [entries_idle he, exits_idle he] using hm.since u

/-- **A call leaves a monitor as its history tells.** -/
theorem perform (hm : Tracks h m) (c : Call) : Tracks (h ++ [m.answer c]) (m.perform c) := by
  have hstep := step m c
  generalize m.answer c = e at hstep ⊢
  generalize m.perform c = m' at hstep ⊢
  cases hstep with
  | taken t hfree =>
    obtain ⟨rfl, hsettled⟩ := hm.free hfree
    refine ⟨fun h => (by cases h), ?_, fun u => ?_⟩
    · rintro _ ⟨rfl⟩
      exact .first hsettled .nil
    · have hu := hm.since u
      rw [sinceFree_kept h rfl]
      simpa [Monitor.free] using hu
  | again t howner =>
    refine ⟨fun h => (by cases h), ?_, fun u => ?_⟩
    · rintro _ ⟨rfl⟩
      exact .again (hm.held t howner) .nil
    · have hu := hm.since u
      rw [howner] at hu
      rw [sinceFree_kept h rfl, entries_append, exits_append, entries_enter, exits_enter]
      simp only [Option.some.injEq, entries_nil, exits_nil] at hu ⊢
      split_ifs at hu ⊢ <;> omega
  | refused => exact hm.idle rfl
  | left t howner hcount =>
    refine ⟨fun h => (by cases h), ?_, fun u => ?_⟩
    · rintro _ ⟨rfl⟩
      have hheld := hm.held t howner
      obtain ⟨n, hn⟩ : ∃ n, m.count = n + 1 := ⟨m.count - 1, by omega⟩
      rw [hn] at hheld ⊢
      exact hheld.left (by omega) false
    · have hu := hm.since u
      rw [howner] at hu
      rw [sinceFree_kept h rfl, entries_append, exits_append, entries_exit, exits_exit]
      simp only [Option.some.injEq, entries_nil, exits_nil] at hu ⊢
      split_ifs at hu ⊢ <;> omega
  | freed t howner hcount =>
    have hheld := hm.held t howner
    have hpos := hheld.pos
    refine ⟨fun _ => ⟨rfl, fun u => ?_⟩, fun _ h => (by cases h), fun u => ?_⟩
    · have hu := hheld.entries_eq u
      rw [entries_append, exits_append, entries_exit, exits_exit]
      simp only [entries_nil, exits_nil]
      split_ifs at hu ⊢ <;> omega
    · rw [sinceFree_freed h rfl]
      rfl
  | stray => exact hm.idle rfl

end Tracks

/-- **A monitor is as its history tells.** -/
theorem tracks (calls : List Call) : Tracks (history calls) (after calls) := by
  induction calls using List.reverseRecOn with
  | nil => exact tracks_free
  | append_singleton calls c ih =>
    rw [history_concat, after_concat]
    exact ih.perform c

namespace Tracks

variable {h : List Event} {m : Monitor} {t u : Nat}

theorem owned_iff (hm : Tracks h m) : m.owner.isSome = true ↔ 0 < m.count := by
  cases howner : m.owner with
  | none => simp [(hm.free howner).1, Monitor.free]
  | some t => simp [(hm.held t howner).pos]

/-- What a thread has entered and not left is what is counted for it. -/
theorem entries_eq (hm : Tracks h m) (u : Nat) :
    entries u h = exits u h + if m.owner = some u then m.count else 0 := by
  cases howner : m.owner with
  | none => simpa using (hm.free howner).2 u
  | some t => simpa using (hm.held t howner).entries_eq u

theorem holds_iff (hm : Tracks h m) : Holds h t ↔ m.owner = some t := by
  have ht := hm.entries_eq t
  by_cases howner : m.owner = some t
  · have hpos := (hm.held t howner).pos
    rw [if_pos howner] at ht
    simp only [Holds, howner, iff_true]
    omega
  · rw [if_neg howner] at ht
    simp only [Holds, howner, iff_false]
    omega

/-- The exits that free the monitor are those that leave the entry by which it was taken. -/
theorem freed_iff (hm : Tracks h m) : m.answer (.exit t) = .exit t (some true) ↔
    ∃ before inner, h = before ++ .enter t true :: inner ∧ Settled before ∧ Nested inner := by
  constructor
  · intro hanswer
    have hstep := step m (.exit t)
    rw [hanswer] at hstep
    generalize m.perform (.exit t) = m' at hstep
    cases hstep with
    | freed _ howner hcount =>
      have hheld := hm.held t howner
      rw [show m.count = 1 from le_antisymm hcount hheld.pos] at hheld
      exact hheld.exists_first
  · rintro ⟨before, inner, rfl, hbefore, hinner⟩
    -- by its entries the thread is the owner, and one is counted
    have hone := hm.entries_eq t
    have hbefore := hbefore t
    have hinner := hinner.settled t
    simp only [entries_append, exits_append, entries_enter, exits_enter, if_true] at hone
    split_ifs at hone with howner
    · have hcount : m.count ≤ 1 := by omega
      simp [answer, exit?, howner, hcount, isFree, Monitor.free]
    · omega

end Tracks

theorem enter_refused_iff {m : Monitor} {t : Nat} :
    m.answer (.enter t) = .enter t false ↔ ∃ u, u ≠ t ∧ m.owner = some u := by
  constructor
  · intro hanswer
    have hstep := step m (.enter t)
    rw [hanswer] at hstep
    generalize m.perform (.enter t) = m' at hstep
    cases hstep with
    | refused _ u howner hne => exact ⟨u, hne, howner⟩
  · rintro ⟨u, hne, howner⟩
    simp [answer, enter?, howner, hne]

theorem exit_refused_iff {m : Monitor} {t : Nat} : m.answer (.exit t) = .exit t none ↔ m.owner ≠ some t := by
  by_cases howner : m.owner = some t
  · simp only [answer, exit?, howner, if_true]
    split_ifs <;> simp
  · simp [answer, exit?, howner]

/-- A call that nobody enters or leaves by changes nothing. -/
theorem perform_of_idle {m : Monitor} {c : Call} (h : (m.answer c).idle) : m.perform c = m := by
  have hstep := step m c
  generalize m.answer c = e at hstep h
  generalize m.perform c = m' at hstep
  cases hstep <;> first | rfl | cases h

/-! ### Counts of a fixed width -/

/-- A monitor whose count has 32 bits. -/
structure Word where
  owner : Option Nat
  count : UInt32
deriving DecidableEq, Repr

namespace Word

/-- A monitor that nobody holds. -/
def free : Word := ⟨none, 0⟩

/-- The answer to a call, and the monitor after it; none if the count cannot be raised or lowered any more. -/
def perform? (m : Word) : Call → Option (Event × Word)
  | .enter t =>
    match m.owner with
    | none => some (.enter t true, ⟨some t, 1⟩)
    | some owner =>
      if owner = t then
        if m.count.toNat + 1 < 2 ^ 32 then some (.enter t true, { m with count := m.count + 1 }) else none
      else some (.enter t false, m)
  | .exit t =>
    if m.owner = some t then
      if m.count = 0 then none
      else if m.count - 1 = 0 then some (.exit t (some true), free)
      else some (.exit t (some false), { m with count := m.count - 1 })
    else some (.exit t none, m)

/-- The calls with the answers, and the monitor after them; none if the count could not be raised or lowered. -/
def run? (m : Word) : List Call → Option (List Event × Word)
  | [] => some ([], m)
  | c :: rest => do
    let (e, m) ← m.perform? c
    let (events, m) ← m.run? rest
    return (e :: events, m)

/-- A monitor with its count cut down to 32 bits. -/
def ofMonitor (m : Monitor) : Word := ⟨m.owner, m.count.toUInt32⟩

theorem run?_concat (m : Word) (calls : List Call) (c : Call) : m.run? (calls ++ [c]) =
    (m.run? calls).bind fun (events, m) => (m.perform? c).map fun (e, m) => (events ++ [e], m) := by
  induction calls generalizing m with
  | nil =>
    simp only [List.nil_append, run?, Option.bind_some]
    cases m.perform? c <;> rfl
  | cons d rest ih =>
    simp only [List.cons_append, run?, ih]
    rcases m.perform? d with _ | ⟨e, m⟩
    · rfl
    · rcases hrest : m.run? rest with _ | ⟨events, m⟩
      · simp [hrest]
      · rcases hlast : m.perform? c with _ | ⟨e', m⟩ <;> simp [hrest, hlast]

theorem toNat_toUInt32 {n : Nat} (h : n < 2 ^ 32) : n.toUInt32.toNat = n := by
  rw [Nat.toUInt32_eq, UInt32.toNat_ofNat']
  exact Nat.mod_eq_of_lt h

theorem toUInt32_sub_one {n : Nat} (hpos : 0 < n) (h : n < 2 ^ 32) : n.toUInt32 - 1 = (n - 1).toUInt32 := by
  have hle : (1 : UInt32) ≤ n.toUInt32 := by
    rw [UInt32.le_iff_toNat_le, toNat_toUInt32 h]
    exact hpos
  apply UInt32.toNat_inj.mp
  rw [UInt32.toNat_sub_of_le _ _ hle, toNat_toUInt32 h, toNat_toUInt32 (by omega)]
  rfl

theorem toUInt32_eq_zero {n : Nat} (h : n < 2 ^ 32) : n.toUInt32 = 0 ↔ n = 0 := by
  rw [← UInt32.toNat_inj, toNat_toUInt32 h]
  rfl

/-- A call is answered alike as long as the count has 32 bits. -/
theorem perform?_ofMonitor {h : List Event} {m : Monitor} (hm : Tracks h m) {c : Call} (hcount : m.count < 2 ^ 32)
    (hafter : (m.perform c).count < 2 ^ 32) :
    (ofMonitor m).perform? c = some (m.answer c, ofMonitor (m.perform c)) := by
  have hstep := step m c
  generalize m.answer c = e at hstep ⊢
  generalize m.perform c = m' at hstep hafter ⊢
  cases hstep with
  | taken t hfree => simp [ofMonitor, perform?, hfree]
  | again t howner =>
    have hroom : m.count < 4294967295 := Nat.lt_of_succ_lt_succ hafter
    simp [ofMonitor, perform?, howner, toNat_toUInt32 hcount, hroom]
  | refused t u howner hne => simp [ofMonitor, perform?, howner, hne]
  | left t howner hmore =>
    have hne : m.count ≠ 0 := by omega
    have hne' : m.count - 1 ≠ 0 := by omega
    simp [ofMonitor, perform?, howner, toUInt32_eq_zero hcount, toUInt32_sub_one (by omega) hcount,
      toUInt32_eq_zero hafter, hne, hne']
  | freed t howner hlast =>
    have hone : m.count = 1 := le_antisymm hlast (hm.held t howner).pos
    simp [ofMonitor, perform?, howner, hone, Monitor.free, free]
  | stray t howner => simp [ofMonitor, perform?, howner]

/-- The count neither runs over nor under, and all calls are answered alike. -/
theorem run?_eq {calls : List Call} (h : ∀ past, past <+: calls → (after past).count < 2 ^ 32) :
    free.run? calls = some (history calls, ofMonitor (after calls)) := by
  induction calls using List.reverseRecOn with
  | nil => rfl
  | append_singleton calls c ih =>
    have hbefore := h calls (List.prefix_append ..)
    have hafter := h _ List.prefix_rfl
    rw [after_concat] at hafter
    rw [run?_concat, ih fun past hpast => h past (hpast.trans (List.prefix_append ..)), history_concat, after_concat]
    simp only [Option.bind_some, perform?_ofMonitor (tracks calls) hbefore hafter, Option.map_some]

end Word

/-- Whether threads never have more than `2 ^ 32 - 1` entries that they have not left. -/
def Shallow (h : List Event) : Prop := ∀ past, past <+: h → ∀ t, entries t past < exits t past + 2 ^ 32

theorem count_lt_of_shallow {calls : List Call} (h : Shallow (history calls)) :
    ∀ past, past <+: calls → (after past).count < 2 ^ 32 := by
  rintro past ⟨more, rfl⟩
  have htracks := tracks past
  cases howner : (after past).owner with
  | none =>
    rw [(htracks.free howner).1]
    exact Nat.two_pow_pos 32
  | some t =>
    have hentries := htracks.entries_eq t
    have hshallow := h _ (history_append past more) t
    rw [if_pos howner] at hentries
    omega

/-! ### The law -/

/-- What is to be said of a monitor after calls of any threads: who holds it, how the next call is answered, and
what the history has to do with both. -/
structure Lawful (calls : List Call) : Prop where
  owned_iff : (after calls).owner.isSome = true ↔ 0 < (after calls).count
  counts : ∀ t, (after calls).owner = some t →
    (after calls).count + exits t (sinceFree (history calls)) = entries t (sinceFree (history calls))
  enter_refused : ∀ t, (after calls).answer (.enter t) = .enter t false ↔
    ∃ u, u ≠ t ∧ (after calls).owner = some u
  exit_refused : ∀ t, (after calls).answer (.exit t) = .exit t none ↔ (after calls).owner ≠ some t
  unchanged : ∀ c, ((after calls).answer c).idle → after (calls ++ [c]) = after calls
  freed : ∀ t, (after calls).answer (.exit t) = .exit t (some true) ↔
    ∃ before inner, history calls = before ++ .enter t true :: inner ∧ Settled before ∧ Nested inner
  holds : ∀ t, Holds (history calls) t ↔ (after calls).owner = some t
  exclusive : ∀ t u, Holds (history calls) t → Holds (history calls) u → t = u
  -- The count does not run under, and if it has 32 bits it does not run over before the entries are nested too
  -- deeply.
  counted : Shallow (history calls) → Word.free.run? calls = some (history calls, .ofMonitor (after calls))

/-- **A monitor is a lock that its owner can enter again,** whatever calls threads make, and in which order. -/
theorem lawful (calls : List Call) : Lawful calls := by
  have h := tracks calls
  refine ⟨h.owned_iff, fun t howner => ?_, fun _ => enter_refused_iff, fun _ => exit_refused_iff, fun c hidle => ?_,
    fun _ => h.freed_iff, fun _ => h.holds_iff, fun t u ht hu => ?_,
    fun hshallow => Word.run?_eq (count_lt_of_shallow hshallow)⟩
  · have hsince := h.since t
    rw [if_pos howner] at hsince
    omega
  · rw [after_concat, perform_of_idle hidle]
  · have howner := h.holds_iff.1 ht
    rw [h.holds_iff.1 hu] at howner
    exact (Option.some.inj howner).symm

end Jvm.Monitor
