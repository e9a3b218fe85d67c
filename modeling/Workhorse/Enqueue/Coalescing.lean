import Workhorse.Enqueue.Lemmas.Debounce
import Workhorse.Task.Theorems

/-!
# Debounce calls on one key

The clock is sampled before the wait for the key's lock. Calls report what they do, and do not move the
window back, as long as no call waits past the expiry of the window that it saw and calls that reset
the same window are served in the order of their samples.
-/

namespace Workhorse

open Transaction Session

namespace Debouncing

variable {k : String × String} {host : Host} {σ σ' : Debouncing}

/-- The condition on a step: a call is served in time, and not after a later call. -/
def Timely (k : String × String) (σ : Debouncing) : Event → Prop
  | .serve conn => ∀ c, σ.waiting.get? conn = some c → c.Timely k σ.session ∧
      ∀ c' ∈ σ.served, c'.debounce.schedule = .reset → c.debounce.schedule = .reset →
        c'.debounce.windowMs = c.debounce.windowMs → c'.sampled ≤ c.sampled
  | _ => True

structure Sound (σ : Debouncing) (k : String × String) : Prop where
  clock : σ.session.host.Monotone
  db : σ.session.db.Debounced k
  waiting : ∀ conn c, σ.waiting.get? conn = some c → c.debounce.identity = k ∧
    c.request.prerequisites = [] ∧ c.sampled ≤ σ.session.now
  served : ∀ c ∈ σ.served, c.Reported ∧ c.Sets k
  order : σ.served.Pairwise fun c c' => c.Resets → c'.Resets →
    c.debounce.windowMs = c'.debounce.windowMs → c.sampled ≤ c'.sampled

theorem initial_sound (hclock : host.Monotone) : (initial host).Sound k where
  clock := hclock
  db := by constructor <;> simp [initial, Db.empty]
  waiting := by simp [initial]
  served := by simp [initial]
  order := by simp [initial]

theorem ensureDebounce_plain {d : Debounce} {r : Request} {s s' : Session}
    (h : ensureDebounce d r s = .ok ((), s')) : s' = s ∧ r.prerequisites = [] := by
  unfold ensureDebounce at h
  rw [database_bind] at h
  split at h
  · cases h
  · simp only [ensure_bind_ok, ensure_ok, decide_eq_true_eq] at h
    obtain ⟨-, -, ⟨hone, hmany⟩, -, -, -, h⟩ := h
    refine ⟨(Prod.mk.inj h).2, ?_⟩
    simp [Request.prerequisites, Request.policies, Option.isNone_iff_eq_none.mp hone,
      Option.isNone_iff_eq_none.mp hmany]

theorem Sound.later (h : σ.Sound k) {s : Session} (hhost : s.host = σ.session.host)
    (hasked : σ.session.asked ≤ s.asked) {conn : Nat} {c : DebounceCall}
    (hc : σ.waiting.get? conn = some c) : c.debounce.identity = k ∧ c.request.prerequisites = [] ∧
      c.sampled ≤ s.now := by
  obtain ⟨hk, hp, hpast⟩ := h.waiting conn c hc
  exact ⟨hk, hp, le_trans hpast (now_le_now h.clock hhost hasked)⟩

theorem Sound.step (h : σ.Sound k) {event : Event}
    (hk : ∀ conn d r, event = .start conn d r → d.identity = k) (htimely : σ.Timely k event)
    (hs : σ.apply event = some σ') : σ'.Sound k := by
  cases event with
  | start conn d r =>
    simp only [apply] at hs
    split at hs
    · cases hs
    · split at hs
      · rename_i s hensure
        cases hs
        obtain ⟨rfl, hp⟩ := ensureDebounce_plain hensure
        refine ⟨h.clock, h.db, fun conn' c hc => ?_, h.served, h.order⟩
        rcases Table.get?_put_cases hc with ⟨-, rfl⟩ | ⟨-, hc⟩
        · exact ⟨hk conn d r rfl, hp, now_le_now h.clock rfl (Nat.le_succ _)⟩
        · exact h.later (s := σ.session.ask) rfl (Nat.le_succ _) hc
      · cases hs
  | serve conn =>
    simp only [apply] at hs
    split at hs
    · cases hs
    · rename_i c hc
      split at hs
      · rename_i taskId outcome s hserve
        cases hs
        obtain ⟨hkey, hp, hpast⟩ := h.waiting conn c hc
        obtain ⟨hcall, hafter⟩ := htimely c hc
        obtain ⟨hdb, hhost, hasked, hreported, hsets⟩ := debounceKey_reports h.db hkey hp hpast hcall _ _ hserve
        refine ⟨?_, hdb, fun conn' c' hc' => ?_, fun c' hc' => ?_, ?_⟩
        · change s.host.Monotone
          exact hhost ▸ h.clock
        · obtain ⟨-, hc'⟩ := Table.get?_erase_eq_some hc'
          exact h.later hhost hasked hc'
        · rcases List.mem_append.mp hc' with hc' | hc'
          · exact h.served c' hc'
          · cases List.mem_singleton.mp hc'
            exact ⟨hreported, hsets⟩
        · refine List.pairwise_append.mpr ⟨h.order, List.pairwise_singleton _ _, ?_⟩
          intro c₁ hc₁ c₂ hc₂ h₁ h₂ hwindow
          cases List.mem_singleton.mp hc₂
          exact hafter c₁ hc₁ h₁.1 h₂.1 hwindow
      · cases hs
  | abort conn =>
    cases hs
    refine ⟨h.clock, h.db, fun conn' c hc => ?_, h.served, h.order⟩
    obtain ⟨-, hc⟩ := Table.get?_erase_eq_some hc
    exact h.waiting conn' c hc
  | tick =>
    cases hs
    exact ⟨h.clock, h.db, fun conn c hc => h.later (s := σ.session.ask) rfl (Nat.le_succ _) hc, h.served, h.order⟩

theorem Reaches.sound (hclock : host.Monotone) (h : Reaches host k (Timely k) σ) : σ.Sound k := by
  induction h with
  | initial => exact initial_sound hclock
  | step _ hk hP hs ih => exact ih.step hk hP hs

end Debouncing

/-- When calls are served in time and resets of a window in the order of their samples, every call
reports what it did, and no reset moves the pending run time or the expiry of the key back. -/
theorem debounce_replaces_one {host : Host} {k : String × String} {σ : Debouncing}
    (hclock : host.Monotone) (h : Debouncing.Reaches host k (Debouncing.Timely k) σ) :
    (∀ c ∈ σ.served, c.Reported) ∧
    σ.served.Pairwise fun c c' => c.Resets → c'.Resets → c.debounce.windowMs = c'.debounce.windowMs →
      (∀ e e', c.after.idempotency.get? k = some e → c'.after.idempotency.get? k = some e' →
        e.expiresAt ≤ e'.expiresAt) ∧ ∀ row row', c.after.runtime.get? c.taskId = some row →
        c'.after.runtime.get? c'.taskId = some row' → row.runAt ≤ row'.runAt := by
  have hσ := h.sound hclock
  refine ⟨fun c hc => (hσ.served c hc).1, hσ.order.imp_of_mem ?_⟩
  intro c c' hc hc' horder hresets hresets' hwindow
  have hset := (hσ.served c hc).2 hresets
  have hset' := (hσ.served c' hc').2 hresets'
  have hle : c.sampled + c.debounce.window ≤ c'.sampled + c'.debounce.window := by
    unfold Debounce.window
    rw [hwindow]
    exact Int.add_le_add_right (horder hresets hresets' hwindow) _
  constructor
  · intro e e' he he'
    obtain ⟨e₁, he₁, -, hexpires⟩ := hset.row
    obtain ⟨e₂, he₂, -, hexpires'⟩ := hset'.row
    cases he₁.symm.trans he
    cases he₂.symm.trans he'
    rw [hexpires, hexpires']
    exact hle
  · intro row row' hrow hrow'
    rw [hset.runAt row hrow, hset'.runAt row' hrow']
    exact hle

instance {c : DebounceCall} {k : String × String} {s : Session} : Decidable (c.Timely k s) :=
  decidable_of_iff ((∀ e ∈ s.db.idempotency.get? k, c.sampled < e.expiresAt → s.now < e.expiresAt) ∧
    ∀ deadline ∈ c.request.deadline, c.sampled < deadline) ⟨fun h => ⟨h.1, h.2⟩, fun h => ⟨h.1, h.2⟩⟩

instance Debouncing.decidableTimely (k : String × String) (σ : Debouncing) :
    (event : Event) → Decidable (σ.Timely k event)
  | .serve conn => inferInstanceAs (Decidable (∀ c ∈ σ.waiting.get? conn, c.Timely k σ.session ∧
      ∀ c' ∈ σ.served, c'.debounce.schedule = .reset → c.debounce.schedule = .reset →
        c'.debounce.windowMs = c.debounce.windowMs → c'.sampled ≤ c.sampled))
  | .start _ _ _ | .abort _ | .tick => .isTrue trivial

def Debouncing.Event.isOn (k : String × String) : Debouncing.Event → Bool
  | .start _ d _ => d.identity = k
  | _ => true

/-- Take the events one after another, if each is about the key and meets the condition. -/
def Debouncing.play (k : String × String) (P : Debouncing → Event → Prop) [∀ σ event, Decidable (P σ event)]
    (σ : Debouncing) (events : List Event) : Option Debouncing :=
  events.foldlM (fun σ event => if event.isOn k = true ∧ P σ event then σ.apply event else none) σ

theorem Debouncing.play_reaches {host : Host} {k : String × String} {P : Debouncing → Event → Prop}
    [∀ σ event, Decidable (P σ event)] {σ σ' : Debouncing} {events : List Event}
    (h : Reaches host k P σ) (hplay : σ.play k P events = some σ') : Reaches host k P σ' := by
  induction events generalizing σ with
  | nil =>
    cases hplay
    exact h
  | cons event events ih =>
    rw [play, List.foldlM_cons] at hplay
    obtain ⟨σ₁, hs, hplay⟩ := Option.bind_eq_some_iff.mp hplay
    obtain ⟨⟨hk, hP⟩, hs⟩ := Option.ite_none_right_eq_some.mp hs
    refine ih (h.step ?_ hP hs) hplay
    rintro conn d r rfl
    simpa [Event.isOn] using hk

def slowHost : Host := { steadyHost with clock := fun n => 200 * n }

def orderDebounce : Debounce := ⟨"order", none, 1, .reset⟩

def orderKey : String × String := ("default", "order")

/-- The second call samples the clock inside the window of the first, and gets the lock after it. -/
def overtaken : List Debouncing.Event :=
  [.start 1 orderDebounce plainRequest, .serve 1, .start 2 orderDebounce plainRequest, .tick, .tick, .serve 2]

def reordered : List Debouncing.Event :=
  [.start 1 orderDebounce plainRequest, .start 2 orderDebounce plainRequest, .serve 2, .serve 1]

/-- The outcome of each call, the number of tasks after it, and when the window of the key ends. -/
def Debouncing.report (σ : Debouncing) : List (DebounceOutcome × Nat × Option Time) := σ.served.map fun c =>
    (c.outcome, c.after.tasks.size, (c.after.idempotency.get? orderKey).map (·.expiresAt))

theorem Debouncing.exists_report {P : Debouncing → Event → Prop} [∀ σ event, Decidable (P σ event)]
    (events : List Event) (expected : List (DebounceOutcome × Nat × Option Time))
    (h : ((initial slowHost).play orderKey P events).map report = some expected) :
    ∃ σ, Reaches slowHost orderKey P σ ∧ σ.report = expected := by
  obtain ⟨σ, hplay, hσ⟩ := Option.map_eq_some_iff.mp h
  exact ⟨σ, play_reaches .initial hplay, hσ⟩

/-- A call that waits for the lock past the expiry of its key reports `replaced` and creates a second
task, and a call that is served after a later one moves the expiry back. -/
theorem debounce_creates_or_moves_back : (∃ σ, Debouncing.Reaches slowHost orderKey (fun _ _ => True) σ ∧
      σ.report = [(.accepted, 1, some 1000), (.replaced, 2, some 1600)]) ∧
    ∃ σ, Debouncing.Reaches slowHost orderKey (fun _ _ => True) σ ∧
      σ.report = [(.accepted, 1, some 1200), (.replaced, 1, some 1000)] :=
  ⟨Debouncing.exists_report overtaken _ (by decide +kernel), Debouncing.exists_report reordered _ (by decide +kernel)⟩

/-- The second call is served inside the window of the first, and moves it on. -/
theorem debounce_replaces_one_second : ∃ σ : Debouncing,
    σ.report = [(.accepted, 1, some 1000), (.replaced, 1, some 1600)] ∧ (∀ c ∈ σ.served, c.Reported) ∧
    σ.served.Pairwise fun c c' => c.Resets → c'.Resets → c.debounce.windowMs = c'.debounce.windowMs →
      ∀ row row', c.after.runtime.get? c.taskId = some row →
        c'.after.runtime.get? c'.taskId = some row' → row.runAt ≤ row'.runAt := by
  have hclock : slowHost.Monotone := by
    intro i j hij
    change (200 * (i : Int)) ≤ 200 * (j : Int)
    omega
  obtain ⟨σ, hserved, hreport⟩ := Debouncing.exists_report (P := Debouncing.Timely orderKey)
    [.start 1 orderDebounce plainRequest, .serve 1, .start 2 orderDebounce plainRequest, .serve 2]
    [(.accepted, 1, some 1000), (.replaced, 1, some 1600)] (by decide +kernel)
  obtain ⟨hreported, hresets⟩ := debounce_replaces_one hclock hserved
  exact ⟨σ, hreport, hreported, hresets.imp fun h hc hc' hwindow => (h hc hc' hwindow).2⟩

end Workhorse
