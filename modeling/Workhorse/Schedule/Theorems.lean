import Workhorse.Schedule.Lemmas.Cron

/-!
# A schedule fires every occurrence once

The position of a pass is the later of the stored position and the newest occurrence, so it vouches for
every occurrence before it. That is right as long as occurrences are fired in their order: the window of
each pass is in the order of instants, and no caller commits an occurrence ahead of one that is due.
-/

namespace Workhorse

namespace Firing

variable {e : Cron} {first : Time} {σ σ' : Firing} {conn : Nat} {t : Time}

def inserted (σ : Firing) : Firer → List Time
  | .pass => (σ.pass.map Pass.inserted).getD []
  | .caller conn => ((σ.callers.get? conn).map Caller.inserted).getD []

def Regular (e : Cron) (first : Time) (σ : Firing) : Event → Prop
  | .start now _ => e.Regular first σ.start now
  | .commit conn => ∀ t ∈ σ.inserted (.caller conn), e.Through first (σ.rows ++ σ.inserted (.caller conn)) t
  | _ => True

end Firing

/-- How far an open pass has come: which occurrences are done, and what it remembers of them. -/
structure Pass.Progress (p : Pass) (e : Cron) (first : Time) (rows : List Time) : Prop where
  regular : e.Regular first p.start p.now
  start : e.Through first rows p.start
  limit : 1 ≤ p.limit
  done : ∃ done, done ++ p.todo = e.occurrences p.start p.now p.limit ∧ done ⊆ rows ++ p.inserted ∧ p.inserted ⊆ done ∧
    if p.waiting then p.deferred = false ∧ p.todo ≠ [] ∧ p.count = done.length + 1 ∧ p.last = p.todo.head?
    else p.count = done.length ∧ p.last = done.getLast?

namespace Firing

variable {e : Cron} {first : Time} {σ σ' : Firing}

structure Sound (e : Cron) (first : Time) (σ : Firing) : Prop where
  fresh : ∀ f, (σ.rows ++ σ.inserted f).Nodup
  alone : ∀ f, σ.inserted f ≠ [] → σ.holder = some f
  closed : ∀ t ∈ σ.rows, e.Through first σ.rows t
  behind : e.Through first σ.rows σ.position
  progress : ∀ p, σ.pass = some p → p.Progress e first σ.rows
  ended : ∀ p ∈ σ.ended, p.count < p.limit → p.deferred = false → e.Through first σ.rows p.now

theorem foldl_max_cases (rows : List Time) (t : Time) : rows.foldl max t = t ∨ rows.foldl max t ∈ rows := by
  induction rows generalizing t with
  | nil => exact .inl rfl
  | cons u us ih =>
    rcases ih (max t u) with h | h
    · rw [List.foldl_cons, h]
      exact (max_choice t u).imp id fun h' => List.mem_cons.mpr (.inl h')
    · exact .inr (List.mem_cons_of_mem u h)

theorem le_foldl_max (rows : List Time) (t : Time) : t ≤ rows.foldl max t ∧ ∀ u ∈ rows, u ≤ rows.foldl max t := by
  induction rows generalizing t with
  | nil => simp
  | cons v vs ih =>
    obtain ⟨hle, hmem⟩ := ih (max t v)
    refine ⟨le_trans (le_max_left t v) hle, fun u hu => ?_⟩
    rcases List.mem_cons.mp hu with rfl | hu
    · exact le_trans (le_max_right t u) hle
    · exact hmem u hu

theorem Sound.through_start (h : σ.Sound e first) : e.Through first σ.rows σ.start := by
  rcases foldl_max_cases σ.rows σ.position with hs | hs
  · rw [start, hs]
    exact h.behind
  · exact h.closed _ hs

/-! ## Rows of open transactions -/

theorem Sound.inserted_eq_nil (h : σ.Sound e first) {f g : Firer} (hfree : σ.free f = true)
    (hne : g ≠ f) : σ.inserted g = [] := by
  by_contra hg
  have hholder := h.alone g hg
  rw [free, hholder] at hfree
  exact hne (by simpa using hfree)

theorem Sound.fresh_end (h : σ.Sound e first) (f : Firer)
    (hrows : σ'.rows = σ.rows ∨ σ'.rows = σ.rows ++ σ.inserted f) (hf : σ'.inserted f = [])
    (hother : ∀ g, g ≠ f → σ'.inserted g = σ.inserted g) (g : Firer) :
    (σ'.rows ++ σ'.inserted g).Nodup := by
  by_cases hg : g = f
  · subst hg
    rw [hf, List.append_nil]
    rcases hrows with hrows | hrows
    · exact hrows ▸ (h.fresh g).of_append_left
    · exact hrows ▸ h.fresh g
  · rw [hother g hg]
    rcases hrows with hrows | hrows
    · exact hrows ▸ h.fresh g
    · by_cases hins : σ.inserted f = []
      · rw [hrows, hins, List.append_nil]
        exact h.fresh g
      · have hfree : σ.free f = true := by simp [free, h.alone f hins]
        rw [hrows, h.inserted_eq_nil hfree hg, List.append_nil]
        exact h.fresh f

theorem Sound.alone_end (h : σ.Sound e first) (f : Firer)
    (hholder : σ'.holder = if σ.holder = some f then none else σ.holder) (hf : σ'.inserted f = [])
    (hother : ∀ g, g ≠ f → σ'.inserted g = σ.inserted g) (g : Firer) (hg : σ'.inserted g ≠ []) :
    σ'.holder = some g := by
  have hne : g ≠ f := fun heq => hg (heq ▸ hf)
  have hs := h.alone g (hother g hne ▸ hg)
  rw [hholder, hs, if_neg fun heq => hne (Option.some.inj heq)]

theorem nodup_fireSchedule {rows inserted : List Time} (t : Time) (h : (rows ++ inserted).Nodup) :
    (rows ++ fireSchedule rows inserted t).Nodup := by
  unfold fireSchedule
  dsimp only
  split
  · exact h
  · rename_i hnew
    rw [← List.append_assoc]
    refine List.nodup_append.mpr ⟨h, List.nodup_singleton _, fun u hu v hv heq => hnew ?_⟩
    cases List.mem_singleton.mp hv
    exact List.mem_append.mp (heq ▸ hu)

theorem mem_fireSchedule (rows inserted : List Time) (t : Time) :
    truncSecond t ∈ rows ++ fireSchedule rows inserted t := by
  unfold fireSchedule
  dsimp only
  split
  · rename_i hold
    exact List.mem_append.mpr hold
  · simp

theorem fireSchedule_subset (rows inserted : List Time) (t : Time) : inserted ⊆ fireSchedule rows inserted t ∧
      fireSchedule rows inserted t ⊆ inserted ++ [truncSecond t] := by
  unfold fireSchedule
  dsimp only
  split
  · exact ⟨fun _ h => h, List.subset_append_left _ _⟩
  · exact ⟨List.subset_append_left _ _, fun _ h => h⟩

theorem Sound.fresh_fire (h : σ.Sound e first) {f : Firer} (hfree : σ.free f = true) (t : Time)
    (hrows : σ'.rows = σ.rows) (hf : σ'.inserted f = fireSchedule σ.rows (σ.inserted f) t)
    (hother : ∀ g, g ≠ f → σ'.inserted g = σ.inserted g) (hholder : σ'.holder = some f) :
    (∀ g, (σ'.rows ++ σ'.inserted g).Nodup) ∧ ∀ g, σ'.inserted g ≠ [] → σ'.holder = some g := by
  have hnil : ∀ g, g ≠ f → σ'.inserted g = [] := fun g hg =>
    (hother g hg).trans (h.inserted_eq_nil hfree hg)
  constructor
  · intro g
    by_cases hg : g = f
    · subst hg
      rw [hrows, hf]
      exact nodup_fireSchedule t (h.fresh g)
    · rw [hnil g hg, hrows, List.append_nil]
      exact (h.fresh f).of_append_left
  · intro g hg
    by_cases hgf : g = f
    · rw [hholder, hgf]
    · exact absurd (hnil g hgf) hg

end Firing

/-! ## The pass -/

namespace Pass.Progress

variable {e : Cron} {first : Time} {rows rows' : List Time} {p : Pass}

theorem mono (h : p.Progress e first rows) (hle : rows ⊆ rows') : p.Progress e first rows' where
  regular := h.regular
  start := h.start.mono hle
  limit := h.limit
  done := by
    obtain ⟨done, hall, hdone, hrest⟩ := h.done
    exact ⟨done, hall, fun t ht => List.append_subset.mpr
      ⟨fun u hu => List.mem_append_left _ (hle hu), List.subset_append_right _ _⟩ (hdone ht), hrest⟩

theorem through_inserted (h : p.Progress e first rows) (ht : t ∈ p.inserted) :
    e.Through first (rows ++ p.inserted) t := by
  obtain ⟨done, hall, hdone, hinserted, -⟩ := h.done
  exact h.regular.through (h.start.mono (List.subset_append_left _ _)) hall hdone (hinserted ht)

/-- The position that the pass leaves vouches for everything before it. -/
theorem through_next (h : p.Progress e first rows) (hend : p.todo = [] ∨ p.deferred = true)
    (ht : p.next = some t) : e.Through first (rows ++ p.inserted) t := by
  obtain ⟨done, hall, hdone, -, hstate⟩ := h.done
  have hstart := h.start.mono (List.subset_append_left rows p.inserted)
  have hidle : p.waiting = false := by
    by_contra hwaiting
    rw [if_pos (by simpa using hwaiting)] at hstate
    rcases hend with hend | hend
    · exact hstate.2.1 hend
    · rw [hstate.1] at hend
      cases hend
  rw [if_neg (by simp [hidle])] at hstate
  obtain ⟨hcount, hlast⟩ := hstate
  have hthrough : ∀ u, p.last = some u → e.Through first (rows ++ p.inserted) u := fun u hu =>
    h.regular.through hstart hall hdone (List.mem_of_getLast? (hlast ▸ hu))
  unfold next at ht
  split at ht
  · exact hthrough t ht
  · rename_i hdeferred
    split at ht
    · exact hthrough t ht
    · rename_i hshort
      cases ht
      have htodo : p.todo = [] := hend.resolve_right hdeferred
      rw [htodo, List.append_nil] at hall
      refine h.regular.through_now hstart ?_ (hall ▸ hdone)
      have hle : (e.occurrences p.start p.now p.limit).length ≤ p.limit := List.length_take_le _ _
      refine lt_of_le_of_ne hle fun heq => hshort ?_
      rw [← hall] at heq
      refine ⟨hcount.trans heq, ?_⟩
      have hne : done ≠ [] := fun hnil => by
        have := h.limit
        simp [hnil] at heq
        omega
      rw [hlast, List.getLast?_eq_some_getLast hne]
      rfl

theorem next_eq_now (hshort : p.count < p.limit) (hdeferred : p.deferred = false) : p.next = some p.now := by
  simp [next, hdeferred, hshort.ne]

theorem opened {start now : Time} {limit : Nat} (hregular : e.Regular first start now)
    (hstart : e.Through first rows start) (hlimit : 1 ≤ limit) :
    (Pass.opened e start now limit).Progress e first rows where
  regular := hregular
  start := hstart
  limit := hlimit
  done := by
    refine ⟨[], ?_, List.nil_subset _, List.nil_subset _, ⟨rfl, rfl⟩⟩
    exact List.filter_eq_self.mpr fun t ht => decide_eq_true (Cron.gt_of_mem_occurrences ht).1

theorem lock (h : p.Progress e first rows) {ts : List Time} (htodo : p.todo = t :: ts)
    (hidle : p.waiting = false) (hdeferred : p.deferred = false) :
    { p with waiting := true, count := p.count + 1, last := some t }.Progress e first rows where
  regular := h.regular
  start := h.start
  limit := h.limit
  done := by
    obtain ⟨done, hall, hdone, hinserted, hstate⟩ := h.done
    simp only [hidle, Bool.false_eq_true, if_false] at hstate
    refine ⟨done, hall, hdone, hinserted, ?_⟩
    simp [htodo, hdeferred, hstate.1]

theorem defer (h : p.Progress e first rows) (hidle : p.waiting = false) :
    { p with deferred := true }.Progress e first rows where
  regular := h.regular
  start := h.start
  limit := h.limit
  done := by
    obtain ⟨done, hall, hdone, hinserted, hstate⟩ := h.done
    refine ⟨done, hall, hdone, hinserted, ?_⟩
    simpa [hidle] using hstate

theorem fire (h : p.Progress e first rows) {ts : List Time} (htodo : p.todo = t :: ts) (hwaiting : p.waiting = true) :
    { p with waiting := false, todo := ts, inserted := fireSchedule rows p.inserted t }.Progress
      e first rows where
  regular := h.regular
  start := h.start
  limit := h.limit
  done := by
    obtain ⟨done, hall, hdone, hinserted, hstate⟩ := h.done
    simp only [hwaiting, if_true] at hstate
    obtain ⟨-, -, hcount, hlast⟩ := hstate
    have hwhole : truncSecond t = t :=
      Cron.whole_of_mem_occurrences (hall ▸ List.mem_append_right done (htodo ▸ List.mem_cons_self))
    obtain ⟨hmore, hless⟩ := Firing.fireSchedule_subset rows p.inserted t
    have hnew := Firing.mem_fireSchedule rows p.inserted t
    rw [hwhole] at hless hnew
    refine ⟨done ++ [t], ?_, ?_, ?_, ?_⟩
    · rw [← hall, htodo, List.append_assoc]
      rfl
    · refine List.append_subset.mpr ⟨fun u hu => ?_, fun u hu => List.mem_singleton.mp hu ▸ hnew⟩
      exact List.append_subset.mpr ⟨List.subset_append_left _ _,
        fun v hv => List.mem_append_right _ (hmore hv)⟩ (hdone hu)
    · intro u hu
      rcases List.mem_append.mp (hless hu) with hu | hu
      · exact List.mem_append_left _ (hinserted hu)
      · exact List.mem_append_right _ hu
    · simp [hcount, hlast, htodo]

end Pass.Progress

namespace Firing

variable {e : Cron} {first : Time} {σ σ' : Firing}

theorem Sound.same (h : σ.Sound e first) (hrows : σ'.rows = σ.rows) (hposition : σ'.position = σ.position)
    (hholder : σ'.holder = σ.holder) (hended : σ'.ended = σ.ended)
    (hinserted : ∀ f, σ'.inserted f = σ.inserted f)
    (hpass : ∀ p, σ'.pass = some p → p.Progress e first σ.rows) : σ'.Sound e first where
  fresh f := by rw [hrows, hinserted]; exact h.fresh f
  alone f hf := by rw [hholder]; exact h.alone f (hinserted f ▸ hf)
  closed := by rw [hrows]; exact h.closed
  behind := by rw [hrows, hposition]; exact h.behind
  progress := by rw [hrows]; exact hpass
  ended := by rw [hrows, hended]; exact h.ended

theorem Sound.insert (h : σ.Sound e first) {f : Firer} (hfree : σ.free f = true) (t : Time)
    (hrows : σ'.rows = σ.rows) (hposition : σ'.position = σ.position)
    (hholder : σ'.holder = some f) (hended : σ'.ended = σ.ended)
    (hf : σ'.inserted f = fireSchedule σ.rows (σ.inserted f) t)
    (hother : ∀ g, g ≠ f → σ'.inserted g = σ.inserted g)
    (hpass : ∀ p, σ'.pass = some p → p.Progress e first σ.rows) : σ'.Sound e first := by
  obtain ⟨hfresh, halone⟩ := h.fresh_fire hfree t hrows hf hother hholder
  exact ⟨hfresh, halone, hrows ▸ h.closed, hrows ▸ hposition ▸ h.behind, hrows ▸ hpass, hrows ▸ hended ▸ h.ended⟩

theorem inserted_pass {p : Pass} (hp : σ.pass = some p) : σ.inserted .pass = p.inserted := by
  simp [inserted, hp]

theorem inserted_caller {c : Caller} (hc : σ.callers.get? conn = some c) : σ.inserted (.caller conn) = c.inserted := by
  simp [inserted, hc]

theorem Sound.lock (h : σ.Sound e first) (hs : σ.apply e .lock = some σ') : σ'.Sound e first := by
  simp only [apply] at hs
  split at hs
  · cases hs
  · rename_i p hp
    split at hs
    · cases hs
    · rename_i t ts htodo
      split at hs
      · cases hs
      · rename_i hidle
        have hidle : p.waiting = false ∧ p.deferred = false := by simpa using hidle
        have hprogress := h.progress p hp
        split at hs <;> cases hs
        · refine h.same rfl rfl rfl rfl (fun f => ?_) fun q hq => ?_
          · cases f <;> simp [inserted, hp]
          · cases hq
            exact hprogress.lock htodo hidle.1 hidle.2
        · refine h.same rfl rfl rfl rfl (fun f => ?_) fun q hq => ?_
          · cases f <;> simp [inserted, hp]
          · cases hq
            exact hprogress.defer hidle.1

theorem Sound.fire (h : σ.Sound e first) (hs : σ.apply e .fire = some σ') : σ'.Sound e first := by
  simp only [apply] at hs
  split at hs
  · cases hs
  · rename_i p hp
    split at hs
    · cases hs
    · rename_i t ts htodo
      split at hs
      · rename_i hguard
        cases hs
        refine h.insert hguard.2 t rfl rfl rfl rfl (by rw [inserted_pass hp]; rfl) (fun g hg => ?_)
          fun q hq => ?_
        · cases g with
          | pass => exact absurd rfl hg
          | caller conn => rfl
        · cases hq
          exact (h.progress p hp).fire htodo hguard.1
      · cases hs

theorem Sound.finish (h : σ.Sound e first) (hs : σ.apply e .finish = some σ') : σ'.Sound e first := by
  simp only [apply] at hs
  split at hs
  · cases hs
  · rename_i p hp
    split at hs
    · rename_i hguard
      cases hs
      have hprogress := h.progress p hp
      have hsub : σ.rows ⊆ σ.rows ++ p.inserted := List.subset_append_left _ _
      have hother : ∀ g, g ≠ Firer.pass → (release { σ with
          position := p.next.getD σ.position, rows := σ.rows ++ p.inserted, pass := none,
          ended := σ.ended ++ [p] } .pass).inserted g = σ.inserted g := by
        intro g hg
        cases g with
        | pass => exact absurd rfl hg
        | caller conn => rfl
      refine ⟨h.fresh_end .pass (.inr (by rw [inserted_pass hp]; rfl)) rfl hother,
        h.alone_end .pass rfl rfl hother, fun t ht => ?_, ?_, fun q hq => (nomatch hq), fun q hq => ?_⟩
      · rcases List.mem_append.mp ht with ht | ht
        · exact (h.closed t ht).mono hsub
        · exact hprogress.through_inserted ht
      · change e.Through first (σ.rows ++ p.inserted) (p.next.getD σ.position)
        cases hnext : p.next with
        | none => exact h.behind.mono hsub
        | some t => exact hprogress.through_next (by simpa using hguard.1) hnext
      · intro hshort hdeferred
        rcases List.mem_append.mp hq with hq | hq
        · exact (h.ended q hq hshort hdeferred).mono hsub
        · cases List.mem_singleton.mp hq
          exact hprogress.through_next (by simpa using hguard.1)
            (Pass.Progress.next_eq_now hshort hdeferred)
    · cases hs

theorem Sound.abort (h : σ.Sound e first) (hs : σ.apply e .abort = some σ') : σ'.Sound e first := by
  cases hs
  have hother : ∀ g, g ≠ Firer.pass → (release { σ with pass := none } .pass).inserted g = σ.inserted g := by
    intro g hg
    cases g with
    | pass => exact absurd rfl hg
    | caller conn => rfl
  exact ⟨h.fresh_end .pass (.inl rfl) rfl hother, h.alone_end .pass rfl rfl hother, h.closed, h.behind,
    fun q hq => (nomatch hq), h.ended⟩

theorem Sound.call (h : σ.Sound e first) (hs : σ.apply e (.call conn t) = some σ') : σ'.Sound e first := by
  simp only [apply] at hs
  split at hs
  · cases hs
  · split at hs <;> cases hs
    · refine h.same rfl rfl rfl rfl (fun f => ?_) h.progress
      cases f with
      | pass => rfl
      | caller conn' =>
        simp only [inserted, Table.get?_put]
        split
        · rename_i heq
          subst heq
          cases σ.callers.get? conn' <;> rfl
        · rfl
    · exact h

theorem Sound.callFire (h : σ.Sound e first) (hs : σ.apply e (.callFire conn) = some σ') : σ'.Sound e first := by
  simp only [apply] at hs
  split at hs
  · cases hs
  · rename_i c hc
    split at hs
    · cases hs
    · rename_i t hwaiting
      split at hs
      · rename_i hfree
        cases hs
        refine h.insert hfree t rfl rfl rfl rfl (by simp [inserted, hc, Table.get?_put])
          (fun g hg => ?_) h.progress
        cases g with
        | pass => rfl
        | caller conn' =>
          have hne : conn' ≠ conn := fun heq => hg (heq ▸ rfl)
          simp [inserted, Table.get?_put, hne]
      · cases hs

theorem inserted_erase (σ σ' : Firing) (hcallers : σ'.callers = σ.callers.erase conn)
    (hpass : σ'.pass = σ.pass) : σ'.inserted (.caller conn) = [] ∧
      ∀ g, g ≠ .caller conn → σ'.inserted g = σ.inserted g := by
  constructor
  · simp [inserted, hcallers]
  · intro g hg
    cases g with
    | pass => simp [inserted, hpass]
    | caller conn' =>
      have hne : conn' ≠ conn := fun heq => hg (heq ▸ rfl)
      simp [inserted, hcallers, Table.get?_erase, hne]

theorem Sound.commit (h : σ.Sound e first) (hregular : σ.Regular e first (.commit conn))
    (hs : σ.apply e (.commit conn) = some σ') : σ'.Sound e first := by
  simp only [apply] at hs
  split at hs
  · cases hs
  · rename_i c hc
    split at hs
    · cases hs
    · cases hs
      simp only [Regular, inserted_caller hc] at hregular
      have hsub : σ.rows ⊆ σ.rows ++ c.inserted := List.subset_append_left _ _
      obtain ⟨hnil, hother⟩ := inserted_erase σ (release { σ with
        rows := σ.rows ++ c.inserted, callers := σ.callers.erase conn } (.caller conn)) rfl rfl
      refine ⟨h.fresh_end _ (.inr (by rw [inserted_caller hc]; rfl)) hnil hother,
        h.alone_end _ rfl hnil hother, fun t ht => ?_, h.behind.mono hsub, fun p hp => (h.progress p hp).mono hsub,
        fun p hp hshort hdeferred => (h.ended p hp hshort hdeferred).mono hsub⟩
      rcases List.mem_append.mp ht with ht | ht
      · exact (h.closed t ht).mono hsub
      · exact hregular t ht

theorem Sound.rollback (h : σ.Sound e first) (hs : σ.apply e (.rollback conn) = some σ') : σ'.Sound e first := by
  cases hs
  obtain ⟨hnil, hother⟩ := inserted_erase σ (release { σ with
    callers := σ.callers.erase conn } (.caller conn)) rfl rfl
  exact ⟨h.fresh_end _ (.inl rfl) hnil hother, h.alone_end _ rfl hnil hother, h.closed, h.behind, h.progress, h.ended⟩

theorem Sound.start (h : σ.Sound e first) {now : Time} {limit : Nat}
    (hregular : σ.Regular e first (.start now limit))
    (hs : σ.apply e (.start now limit) = some σ') : σ'.Sound e first := by
  simp only [apply] at hs
  split at hs
  · rename_i hguard
    cases hs
    refine h.same rfl rfl rfl rfl (fun f => ?_) fun p hp => ?_
    · cases f with
      | pass => simp [inserted, Option.isNone_iff_eq_none.mp hguard.1, Pass.opened]
      | caller conn => rfl
    · cases hp
      exact .opened hregular h.through_start hguard.2.1
  · cases hs

theorem Sound.step (h : σ.Sound e first) {event : Event} (hregular : σ.Regular e first event)
    (hs : σ.apply e event = some σ') : σ'.Sound e first := by
  cases event with
  | start now limit => exact h.start hregular hs
  | lock => exact h.lock hs
  | fire => exact h.fire hs
  | finish => exact h.finish hs
  | abort => exact h.abort hs
  | call conn t => exact h.call hs
  | callFire conn => exact h.callFire hs
  | commit conn => exact h.commit hregular hs
  | rollback conn => exact h.rollback hs

theorem initial_sound {position : Time} {rows : List Time} (hrows : rows.Nodup) :
    (initial position rows).Sound e (initial position rows).start where
  fresh f := by cases f <;> simpa [inserted, initial] using hrows
  alone f hf := by cases f <;> simp [inserted, initial] at hf
  closed t ht w _ hfirst hle := absurd (le_trans hle ((le_foldl_max rows position).2 t ht)) (not_le.mpr hfirst)
  behind w _ hfirst hle := absurd (le_trans hle (le_foldl_max rows position).1) (not_le.mpr hfirst)
  progress p hp := nomatch hp
  ended p hp := nomatch hp

theorem Reaches.sound {position : Time} {rows : List Time} (hrows : rows.Nodup)
    (h : Reaches e (Firing.initial position rows)
      (Regular e (Firing.initial position rows).start) σ) :
    σ.Sound e (Firing.initial position rows).start := by
  induction h with
  | initial => exact initial_sound hrows
  | step _ hP hs ih => exact ih.step hP hs

end Firing

/-- When every pass finds its window in the order of instants and no caller commits ahead of an occurrence
that is due, no occurrence is fired twice, and a pass that ends short of its limit and was not deferred
leaves none that is due. -/
theorem schedule_fires_once {e : Cron} {position : Time} {rows : List Time} {σ : Firing}
    (hrows : rows.Nodup)
    (h : Firing.Reaches e (.initial position rows)
      (Firing.Regular e (Firing.initial position rows).start) σ) :
    σ.rows.Nodup ∧ ∀ p ∈ σ.ended, p.count < p.limit → p.deferred = false → ∀ w ∈ e.wallClocks,
      (Firing.initial position rows).start < w.instant → w.instant ≤ p.now → w.instant ∈ σ.rows := by
  have hσ := h.sound hrows
  exact ⟨(hσ.fresh .pass).of_append_left, hσ.ended⟩

/-! ## Runs -/

namespace Firing

variable {e : Cron} {σ₀ σ σ' : Firing} {P : Firing → Event → Prop}

theorem Reaches.run (h : Reaches e σ₀ P σ) {events : List Event}
    (hP : ∀ τ, ∀ event ∈ events, P τ event) (hs : events.foldlM (apply e) σ = some σ') :
    Reaches e σ₀ P σ' := by
  induction events generalizing σ with
  | nil =>
    cases hs
    exact h
  | cons event events ih =>
    rw [List.foldlM_cons, Option.bind_eq_bind, Option.bind_eq_some_iff] at hs
    obtain ⟨τ, hτ, hs⟩ := hs
    exact ih (h.step (hP σ event List.mem_cons_self) hτ)
      (fun τ event hmem => hP τ event (List.mem_cons_of_mem _ hmem)) hs

def loses (e : Cron) (first : Time) (σ : Firing) : Bool :=
  σ.ended.any fun p => p.count < p.limit && !p.deferred && e.wallClocks.any fun w =>
    first < w.instant && w.instant ≤ p.now && w.instant ∉ σ.rows

end Firing

def minutes : Cron where
  wallClocks := [⟨0, 60000000, false⟩, ⟨0, 120000000, false⟩]
  dateOf t := t / 86400000000
  horizonDate d := d - 46751
  whole := by decide
  exact := by decide

/-- An expression that fires at 02:15 and 02:40, on a day whose clocks go from 02:00 to 02:30. -/
def shortGap : Cron where
  wallClocks := [⟨0, 8100000000, true⟩, ⟨0, 7800000000, false⟩]
  dateOf t := t / 86400000000
  horizonDate d := d - 46751
  whole := by decide
  exact := by decide

/-- A caller fires the second minute first, and the pass after it starts there. In the short gap a pass
of one occurrence fires the later instant, and the pass after it starts there. -/
theorem schedule_loses_occurrence : (∃ σ, Firing.Reaches minutes (.initial 0 []) (fun _ _ => True) σ ∧
      σ.loses minutes (Firing.initial 0 []).start = true) ∧
    ∃ σ, Firing.Reaches shortGap (.initial 0 []) (fun _ _ => True) σ ∧
      σ.loses shortGap (Firing.initial 0 []).start = true := by
  constructor
  · have h : (([.call 0 120000000, .callFire 0, .commit 0, .start 121000000 10, .finish] :
        List Firing.Event).foldlM (Firing.apply minutes) (.initial 0 [])).any
          (Firing.loses minutes 0) = true := by decide +kernel
    obtain ⟨σ, hσ, hloses⟩ := (Option.any_eq_true _ _).mp h
    exact ⟨σ, Firing.Reaches.initial.run (fun _ _ _ => trivial) hσ, hloses⟩
  · have h : (([.start 8200000000 1, .lock, .fire, .finish, .start 8300000000 1, .finish] :
        List Firing.Event).foldlM (Firing.apply shortGap) (.initial 0 [])).any
          (Firing.loses shortGap 0) = true := by decide +kernel
    obtain ⟨σ, hσ, hloses⟩ := (Option.any_eq_true _ _).mp h
    exact ⟨σ, Firing.Reaches.initial.run (fun _ _ _ => trivial) hσ, hloses⟩

theorem schedule_fires_minutes : ∃ σ : Firing, σ.ended ≠ [] ∧ σ.rows.Nodup ∧
    ∀ p ∈ σ.ended, p.count < p.limit → p.deferred = false → ∀ w ∈ minutes.wallClocks,
      (Firing.initial 0 []).start < w.instant → w.instant ≤ p.now → w.instant ∈ σ.rows := by
  have hstart : minutes.Regular (Firing.initial 0 []).start (Firing.initial 0 []).start 121000000 :=
    ⟨by decide, by decide⟩
  have h : (([.lock, .fire, .lock, .fire, .finish] : List Firing.Event).foldlM (Firing.apply minutes)
      { Firing.initial 0 [] with pass := some (.opened minutes 0 121000000 10) }).any
        (fun σ => !σ.ended.isEmpty) = true := by decide +kernel
  obtain ⟨σ, hσ, hended⟩ := (Option.any_eq_true _ _).mp h
  have hopened : Firing.Reaches minutes (.initial 0 [])
      (Firing.Regular minutes (Firing.initial 0 []).start)
      { Firing.initial 0 [] with pass := some (.opened minutes 0 121000000 10) } :=
    @Firing.Reaches.step _ _ _ _ _ (.start 121000000 10) .initial hstart rfl
  refine ⟨σ, by simpa using hended, schedule_fires_once List.nodup_nil (hopened.run ?_ hσ)⟩
  intro τ event hevent
  simp only [List.mem_cons, List.not_mem_nil, or_false] at hevent
  rcases hevent with rfl | rfl | rfl | rfl | rfl <;> trivial

end Workhorse
