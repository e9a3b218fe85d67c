import Workhorse.Admission.Interleaving
import Workhorse.Admission.Lemmas.Shares

/-!
# Caps on leases

Claims that hold different shards do not see each other's leases. What keeps them within the cap: a
claim starts no more on a shard than its share leaves, and takes off its room what the shards that it
does not hold are overdrawn. A lease that a count found expired stays expired, as long as heartbeats
commit in time.
-/

namespace Workhorse

open Finset

variable {gate : Gate} {now t : Time} {r r' : Runtime} {id : TaskId} {shards : Nat}

/-! ## Rows -/

theorem Gate.leases_iff : gate.leases now r = true ↔
    r.state = .active ∧ gate.counts r = true ∧ r.expiresAt.any (now < ·) = true := by
  simp [leases, and_assoc]

theorem Gate.leasesIn_iff {shard : Nat} : gate.leasesIn now shards shard r = true ↔
    gate.leases now r = true ∧ r.admissionShard.getD 0 % shards = shard := by
  simp [leasesIn]

theorem Gate.leases_mono (h : now ≤ t) (hl : gate.leases t r = true) : gate.leases now r = true := by
  obtain ⟨hs, hc, he⟩ := leases_iff.mp hl
  refine leases_iff.mpr ⟨hs, hc, ?_⟩
  obtain ⟨u, hu, hlt⟩ := (Option.any_eq_true _ _).mp he
  refine (Option.any_eq_true _ _).mpr ⟨u, hu, ?_⟩
  exact decide_eq_true (lt_of_le_of_lt h (of_decide_eq_true hlt))

theorem renewed_cases (r : Runtime) (now : Time) (leaseMs : Nat) : r.renewed now leaseMs = r ∨
    r.expiresAt.any (now < ·) = true ∧ r.renewed now leaseMs =
      { r with heartbeatAt := some now, expiresAt := some (now + milliseconds leaseMs) } := by
  unfold Runtime.renewed
  split
  · rename_i h
    simp only [Lease.renewable, Bool.and_eq_true] at h
    exact .inr ⟨h.2, rfl⟩
  · exact .inl rfl

theorem renewed_same (r : Runtime) (now : Time) (leaseMs : Nat) :
    (r.renewed now leaseMs).state = r.state ∧ (r.renewed now leaseMs).fenceToken = r.fenceToken ∧
    (r.renewed now leaseMs).admissionShard = r.admissionShard := by
  rcases renewed_cases r now leaseMs with h | ⟨-, h⟩
  · rw [h]
    exact ⟨rfl, rfl, rfl⟩
  · rw [h]
    exact ⟨rfl, rfl, rfl⟩

/-! ## Counting by shard -/

theorem shardLeases_eq {runtime : Table TaskId Runtime} {shard : Nat} :
    shardLeases shards shard ((runtime.select fun _ r => gate.leases now r).map (·.2.admissionShard)) =
      (runtime.having (gate.leasesIn now shards shard)).card := by
  rw [Table.card_having, shardLeases, Table.select, Table.count, List.countP_map, List.countP_filter]
  refine List.countP_congr fun e _ => ?_
  simp only [Function.comp_apply, Gate.leasesIn, Bool.and_eq_true, decide_eq_true_eq, beq_iff_eq]
  exact and_comm

/-! ## Slots -/

section Slots

variable {rooms : Nat → Int} {held : List Nat} {n shard : Nat}

theorem mem_of_mem_slots (h : shard ∈ slots (some rooms) held n) : shard ∈ held := by
  induction held generalizing n with
  | nil => cases h
  | cons s held ih =>
    simp only [slots, List.mem_append, List.mem_replicate] at h
    rcases h with ⟨-, rfl⟩ | h
    · exact List.mem_cons_self
    · exact List.mem_cons_of_mem _ (ih h)

theorem count_slots_le (hnd : held.Nodup) : (slots (some rooms) held n).count shard ≤ (rooms shard).toNat := by
  induction held generalizing n with
  | nil => exact Nat.zero_le _
  | cons s held ih =>
    obtain ⟨hs, hnd⟩ := List.nodup_cons.mp hnd
    simp only [slots, List.count_append, List.count_replicate]
    by_cases hshard : s = shard
    · subst hshard
      have hnone : (slots (some rooms) held (n - min n (rooms s).toNat)).count s = 0 :=
        List.count_eq_zero.mpr fun h => hs (mem_of_mem_slots h)
      rw [hnone]
      simp
    · simpa [hshard] using ih hnd

end Slots

namespace Admissions

variable {σ σ' : Admissions} {label : Option Nat} {conn : Nat} {c : OpenClaim}

/-! ## All leases -/

def allLeases (gate : Gate) (σ : Admissions) : Finset TaskId := σ.runtime.having (gate.leases σ.clock) ∪
    (σ.claims.rows.map Prod.fst).toFinset.biUnion fun conn =>
      ((σ.claims.get? conn).map fun c => c.started.having (gate.leases σ.clock)).getD ∅

theorem mem_allLeases : id ∈ σ.allLeases gate ↔ (∃ r, σ.runtime.get? id = some r ∧ gate.leases σ.clock r = true) ∨
    ∃ conn c r, σ.claims.get? conn = some c ∧ c.started.get? id = some r ∧ gate.leases σ.clock r = true := by
  simp only [allLeases, mem_union, Table.mem_having, mem_biUnion, List.mem_toFinset, Table.mem_keys_iff]
  constructor
  · rintro (h | ⟨conn, ⟨c, hc⟩, h⟩)
    · exact .inl h
    · rw [hc, Option.map_some, Option.getD_some, Table.mem_having] at h
      obtain ⟨r, hr, hl⟩ := h
      exact .inr ⟨conn, c, r, hc, hr, hl⟩
  · rintro (h | ⟨conn, c, r, hc, hr, hl⟩)
    · exact .inl h
    · refine .inr ⟨conn, ⟨c, hc⟩, ?_⟩
      rw [hc, Option.map_some, Option.getD_some, Table.mem_having]
      exact ⟨r, hr, hl⟩

structure Capped (gate : Gate) (σ : Admissions) : Prop where
  shards : 0 < σ.shards
  nodup : ∀ conn c, σ.claims.get? conn = some c → c.held.Nodup
  exclusive : ∀ conn conn' c c', σ.claims.get? conn = some c → σ.claims.get? conn' = some c' →
    ∀ s ∈ c.held, s ∈ c'.held → conn = conn'
  slot : ∀ conn c id r, σ.claims.get? conn = some c → c.started.get? id = some r →
    r.admissionShard.getD 0 % σ.shards ∈ c.held
  idle : ∀ conn c id r r', σ.claims.get? conn = some c → c.started.get? id = some r →
    σ.runtime.get? id = some r' → r'.state ≠ .active
  apart : ∀ conn conn' c c' id r r', σ.claims.get? conn = some c → σ.claims.get? conn' = some c' →
    c.started.get? id = some r → c'.started.get? id = some r' → conn = conn'
  within : ∀ conn c, σ.claims.get? conn = some c → ∀ s, (c.started.having (gate.leasesIn σ.clock σ.shards s)).card ≤
      admissionShare gate.cap σ.shards s - (σ.runtime.having (gate.leasesIn σ.clock σ.shards s)).card
  cap : (σ.allLeases gate).card ≤ gate.cap

/-! ## A count -/

def leasesOf (gate : Gate) (σ : Admissions) (s : Nat) : Finset TaskId :=
  σ.runtime.having (gate.leasesIn σ.clock σ.shards s) ∪
    (σ.claims.rows.map Prod.fst).toFinset.biUnion fun conn =>
      ((σ.claims.get? conn).map fun c =>
        c.started.having (gate.leasesIn σ.clock σ.shards s)).getD ∅

theorem mem_leasesOf {s : Nat} : id ∈ σ.leasesOf gate s ↔
    (∃ r, σ.runtime.get? id = some r ∧ gate.leasesIn σ.clock σ.shards s r = true) ∨
    ∃ conn c r, σ.claims.get? conn = some c ∧ c.started.get? id = some r ∧
      gate.leasesIn σ.clock σ.shards s r = true := by
  simp only [leasesOf, mem_union, Table.mem_having, mem_biUnion, List.mem_toFinset, Table.mem_keys_iff]
  constructor
  · rintro (h | ⟨conn, ⟨c, hc⟩, h⟩)
    · exact .inl h
    · rw [hc, Option.map_some, Option.getD_some, Table.mem_having] at h
      obtain ⟨r, hr, hl⟩ := h
      exact .inr ⟨conn, c, r, hc, hr, hl⟩
  · rintro (h | ⟨conn, c, r, hc, hr, hl⟩)
    · exact .inl h
    · refine .inr ⟨conn, ⟨c, hc⟩, ?_⟩
      rw [hc, Option.map_some, Option.getD_some, Table.mem_having]
      exact ⟨r, hr, hl⟩

theorem card_allLeases_le (h : 0 < σ.shards) :
    (σ.allLeases gate).card ≤ ∑ s ∈ range σ.shards, (σ.leasesOf gate s).card := by
  refine (card_le_card fun id hid => ?_).trans card_biUnion_le
  rw [mem_biUnion]
  rcases mem_allLeases.mp hid with ⟨r, hr, hl⟩ | ⟨conn, c, r, hc, hr, hl⟩
  · exact ⟨_, mem_range.mpr (Nat.mod_lt _ h), mem_leasesOf.mpr (.inl ⟨r, hr, Gate.leasesIn_iff.mpr ⟨hl, rfl⟩⟩)⟩
  · exact ⟨_, mem_range.mpr (Nat.mod_lt _ h),
      mem_leasesOf.mpr (.inr ⟨conn, c, r, hc, hr, Gate.leasesIn_iff.mpr ⟨hl, rfl⟩⟩)⟩

namespace Capped

variable (h : σ.Capped gate) (hc : σ.claims.get? conn = some c)

include h hc

theorem sees_committed (hnow : now ≤ σ.clock) (s : Nat) : σ.runtime.having (gate.leasesIn σ.clock σ.shards s) ⊆
      (σ.runtime.overlay c.started).having (gate.leasesIn now σ.shards s) := by
  intro id hid
  obtain ⟨r, hr, hl⟩ := Table.mem_having.mp hid
  obtain ⟨hl, hs⟩ := Gate.leasesIn_iff.mp hl
  refine Table.mem_having.mpr ⟨r, ?_, Gate.leasesIn_iff.mpr ⟨Gate.leases_mono hnow hl, hs⟩⟩
  cases hst : c.started.get? id with
  | none => simp [hst, hr]
  | some r' => exact absurd (Gate.leases_iff.mp hl).1 (h.idle _ _ _ _ _ hc hst hr)

omit h hc in
theorem sees_started (hnow : now ≤ σ.clock) (s : Nat) : c.started.having (gate.leasesIn σ.clock σ.shards s) ⊆
      (σ.runtime.overlay c.started).having (gate.leasesIn now σ.shards s) := by
  intro id hid
  obtain ⟨r, hr, hl⟩ := Table.mem_having.mp hid
  obtain ⟨hl, hs⟩ := Gate.leasesIn_iff.mp hl
  exact Table.mem_having.mpr ⟨r, by simp [hr], Gate.leasesIn_iff.mpr ⟨Gate.leases_mono hnow hl, hs⟩⟩

theorem leasesOf_held (hnow : now ≤ σ.clock) {s : Nat} (hs : s ∈ c.held) :
    σ.leasesOf gate s ⊆ (σ.runtime.overlay c.started).having (gate.leasesIn now σ.shards s) := by
  intro id hid
  rcases mem_leasesOf.mp hid with hr | ⟨conn', c', r, hc', hr, hl⟩
  · exact h.sees_committed hc hnow s (Table.mem_having.mpr hr)
  · have hslot := h.slot _ _ _ _ hc' hr
    rw [(Gate.leasesIn_iff.mp hl).2] at hslot
    cases h.exclusive _ _ _ _ hc hc' s hs hslot
    cases hc.symm.trans hc'
    exact sees_started hnow s (Table.mem_having.mpr ⟨r, hr, hl⟩)

omit hc in
theorem card_leasesOf_le (s : Nat) : (σ.leasesOf gate s).card ≤ max (admissionShare gate.cap σ.shards s)
      (σ.runtime.having (gate.leasesIn σ.clock σ.shards s)).card := by
  by_cases hheld : ∃ conn c, σ.claims.get? conn = some c ∧ s ∈ c.held
  · obtain ⟨conn, c, hc, hs⟩ := hheld
    have hsub : σ.leasesOf gate s ⊆ σ.runtime.having (gate.leasesIn σ.clock σ.shards s) ∪
        c.started.having (gate.leasesIn σ.clock σ.shards s) := by
      intro id hid
      rcases mem_leasesOf.mp hid with hr | ⟨conn', c', r, hc', hr, hl⟩
      · exact mem_union_left _ (Table.mem_having.mpr hr)
      · have hslot := h.slot _ _ _ _ hc' hr
        rw [(Gate.leasesIn_iff.mp hl).2] at hslot
        cases h.exclusive _ _ _ _ hc hc' s hs hslot
        cases hc.symm.trans hc'
        exact mem_union_right _ (Table.mem_having.mpr ⟨r, hr, hl⟩)
    have hcard := (card_le_card hsub).trans (card_union_le _ _)
    have hwithin := h.within conn c hc s
    omega
  · refine le_max_of_le_right (card_le_card fun id hid => ?_)
    rcases mem_leasesOf.mp hid with hr | ⟨conn', c', r, hc', hr, hl⟩
    · exact Table.mem_having.mpr hr
    · have hslot := h.slot _ _ _ _ hc' hr
      rw [(Gate.leasesIn_iff.mp hl).2] at hslot
      exact absurd ⟨conn', c', hc', hslot⟩ hheld

/-- What a claim may start fits beside all leases, also those it does not see. -/
theorem room (hnow : now ≤ σ.clock) :
    ((σ.allLeases gate).card : Int) + concRoom σ.shards c.held (σ.rooms gate c now) ≤ gate.cap := by
  have hall := @card_allLeases_le gate σ h.shards
  have hshare : ∑ s ∈ range σ.shards, admissionShare gate.cap σ.shards s = gate.cap := sum_admissionShare h.shards
  have hroom (s : Nat) : σ.rooms gate c now s = (admissionShare gate.cap σ.shards s : Int) -
      (((σ.runtime.overlay c.started).having (gate.leasesIn now σ.shards s)).card : Int) := by
    rw [rooms, shardRoom, shardLeases_eq]
  have hheld : ∑ s ∈ range σ.shards with s ∈ c.held, (((σ.leasesOf gate s).card : Int) + σ.rooms gate c now s) ≤
      ∑ s ∈ range σ.shards with s ∈ c.held, (admissionShare gate.cap σ.shards s : Int) := by
    refine sum_le_sum fun s hs => ?_
    have hle := card_le_card (h.leasesOf_held hc hnow (mem_filter.mp hs).2)
    rw [hroom]
    omega
  have hother : ∑ s ∈ range σ.shards with s ∉ c.held, (((σ.leasesOf gate s).card : Int) +
      min (σ.rooms gate c now s) 0) ≤
      ∑ s ∈ range σ.shards with s ∉ c.held, (admissionShare gate.cap σ.shards s : Int) := by
    refine sum_le_sum fun s _ => ?_
    have hle := h.card_leasesOf_le s
    have hsees := card_le_card (h.sees_committed hc hnow s)
    rw [hroom]
    omega
  have hconc : concRoom σ.shards c.held (σ.rooms gate c now) ≤
      (∑ s ∈ range σ.shards with s ∈ c.held, σ.rooms gate c now s) +
        ∑ s ∈ range σ.shards with s ∉ c.held, min (σ.rooms gate c now s) 0 := min_le_right _ _
  rw [sum_add_distrib] at hheld hother
  have hsum := sum_filter_add_sum_filter_not (range σ.shards) (· ∈ c.held)
    fun s => ((σ.leasesOf gate s).card : Int)
  have hshares := sum_filter_add_sum_filter_not (range σ.shards) (· ∈ c.held)
    fun s => (admissionShare gate.cap σ.shards s : Int)
  have hall' : ((σ.allLeases gate).card : Int) ≤ ∑ s ∈ range σ.shards, ((σ.leasesOf gate s).card : Int) :=
    by exact_mod_cast hall
  have hshare' : ∑ s ∈ range σ.shards, (admissionShare gate.cap σ.shards s : Int) = gate.cap := by
    exact_mod_cast hshare
  linarith

end Capped

/-! ## Steps -/

theorem having_mono {t u : Table TaskId Runtime} {p q : Runtime → Bool}
    (h : ∀ id r, t.get? id = some r → p r = true → ∃ r', u.get? id = some r' ∧ q r' = true) :
    (t.having p).card ≤ (u.having q).card := by
  refine card_le_card fun id hid => ?_
  obtain ⟨r, hr, hp⟩ := Table.mem_having.mp hid
  exact Table.mem_having.mpr (h id r hr hp)

theorem Capped.commit (h : σ.Capped gate) {t : Table TaskId Runtime} (hclaims : σ'.claims = σ.claims)
    (hclock : σ'.clock = σ.clock) (hshards : σ'.shards = σ.shards) (ht : σ'.runtime = t)
    (hidle : ∀ conn c id r r', σ.claims.get? conn = some c → c.started.get? id = some r →
      t.get? id = some r' → r'.state ≠ .active)
    (hsub : ∀ id r', t.get? id = some r' → gate.leases σ.clock r' = true →
      ∃ r, σ.runtime.get? id = some r ∧ gate.leases σ.clock r = true ∧
        r.admissionShard = r'.admissionShard) : σ'.Capped gate := by
  obtain ⟨clock, fenceSeq, shards, runtime, beats, claims, expired⟩ := σ'
  cases hclaims
  cases hclock
  cases hshards
  cases ht
  refine ⟨h.shards, h.nodup, h.exclusive, h.slot, hidle, h.apart, fun conn c hc s => ?_, ?_⟩
  · refine (h.within conn c hc s).trans (Nat.sub_le_sub_left (having_mono fun id r' hr' hl => ?_) _)
    obtain ⟨hl, hs⟩ := Gate.leasesIn_iff.mp hl
    obtain ⟨r, hr, hl, hshard⟩ := hsub id r' hr' hl
    exact ⟨r, hr, Gate.leasesIn_iff.mpr ⟨hl, hshard ▸ hs⟩⟩
  · refine (card_le_card fun id hid => ?_).trans h.cap
    rcases mem_allLeases.mp hid with ⟨r', hr', hl⟩ | hst
    · obtain ⟨r, hr, hl, -⟩ := hsub id r' hr' hl
      exact mem_allLeases.mpr (.inl ⟨r, hr, hl⟩)
    · exact mem_allLeases.mpr (.inr hst)

theorem Capped.put (h : σ.Capped gate) (hclaims : σ'.claims = σ.claims) (hclock : σ'.clock = σ.clock)
    (hshards : σ'.shards = σ.shards) (ht : σ'.runtime = σ.runtime.put id r')
    (hidle : (∃ conn c r, σ.claims.get? conn = some c ∧ c.started.get? id = some r) → r'.state ≠ .active)
    (hsub : gate.leases σ.clock r' = true → ∃ r, σ.runtime.get? id = some r ∧
      gate.leases σ.clock r = true ∧ r.admissionShard = r'.admissionShard) : σ'.Capped gate := by
  refine h.commit hclaims hclock hshards ht (fun conn c k r q hc hr hq => ?_) fun k q hq hl => ?_
  · rcases Table.get?_put_cases hq with ⟨rfl, rfl⟩ | ⟨-, hq⟩
    · exact hidle ⟨conn, c, r, hc, hr⟩
    · exact h.idle conn c k r q hc hr hq
  · rcases Table.get?_put_cases hq with ⟨rfl, rfl⟩ | ⟨-, hq⟩
    · exact hsub hl
    · exact ⟨q, hq, hl, rfl⟩

theorem Capped.renewed (h : σ.Capped gate) (hclaims : σ'.claims = σ.claims)
    (hclock : σ'.clock = σ.clock) (hshards : σ'.shards = σ.shards) {leaseMs : Nat}
    (hr : σ.runtime.get? id = some r) (ht : σ'.runtime = σ.runtime.put id (r.renewed now leaseMs))
    (hprompt : r.renewed now leaseMs ≠ r → r.expiresAt.any (σ.clock < ·) = true) :
    σ'.Capped gate := by
  obtain ⟨hstate, -, hshard⟩ := renewed_same r now leaseMs
  refine h.put hclaims hclock hshards ht (fun hst => ?_) fun hl => ?_
  · obtain ⟨conn, c, q, hc, hq⟩ := hst
    rw [hstate]
    exact h.idle conn c id q r hc hq hr
  · refine ⟨r, hr, ?_, hshard.symm⟩
    by_cases hsame : r.renewed now leaseMs = r
    · rwa [hsame] at hl
    · obtain ⟨hs, hcounts, -⟩ := Gate.leases_iff.mp hl
      rw [hstate] at hs
      rw [gate.renewed] at hcounts
      exact Gate.leases_iff.mpr ⟨hs, hcounts, hprompt hsame⟩

theorem Capped.tick (h : σ.Capped gate) (ht : σ.clock ≤ t) : ({ σ with clock := t }).Capped gate := by
  have hin {s : Nat} {u : Table TaskId Runtime} :
      (u.having (gate.leasesIn t σ.shards s)).card ≤ (u.having (gate.leasesIn σ.clock σ.shards s)).card :=
    having_mono fun id r hr hl => by
      obtain ⟨hl, hs⟩ := Gate.leasesIn_iff.mp hl
      exact ⟨r, hr, Gate.leasesIn_iff.mpr ⟨Gate.leases_mono ht hl, hs⟩⟩
  refine ⟨h.shards, h.nodup, h.exclusive, h.slot, h.idle, h.apart, fun conn c hc s => ?_, ?_⟩
  · exact (hin.trans (h.within conn c hc s)).trans (Nat.sub_le_sub_left hin _)
  · refine (card_le_card fun id hid => ?_).trans h.cap
    rcases mem_allLeases.mp hid with ⟨r, hr, hl⟩ | ⟨conn, c, r, hc, hr, hl⟩
    · exact mem_allLeases.mpr (.inl ⟨r, hr, Gate.leases_mono ht hl⟩)
    · exact mem_allLeases.mpr (.inr ⟨conn, c, r, hc, hr, Gate.leases_mono ht hl⟩)

theorem Capped.lock (h : σ.Capped gate) {c' : OpenClaim}
    (hstarted : c'.started = .empty ∨ ∃ c, σ.claims.get? conn = some c ∧ c'.started = c.started ∧
      ∀ s ∈ c.held, s ∈ c'.held)
    (hnodup : c'.held.Nodup)
    (hfree : ∀ conn' d, σ.claims.get? conn' = some d → conn' ≠ conn → ∀ s ∈ c'.held, s ∉ d.held) :
    ({ σ with claims := σ.claims.put conn c' }).Capped gate := by
  have hold {conn' : Nat} {d : OpenClaim} (hd : (σ.claims.put conn c').get? conn' = some d) :
      conn' = conn ∧ d = c' ∨ conn' ≠ conn ∧ σ.claims.get? conn' = some d := by
    rw [Table.get?_put] at hd
    split at hd
    · rename_i hk
      exact .inl ⟨hk, (Option.some.inj hd).symm⟩
    · rename_i hk
      exact .inr ⟨hk, hd⟩
  have hrow {k : TaskId} {r : Runtime} (hr : c'.started.get? k = some r) :
      ∃ c, σ.claims.get? conn = some c ∧ c.started.get? k = some r ∧ ∀ s ∈ c.held, s ∈ c'.held := by
    rcases hstarted with hs | ⟨c, hc, hs, hheld⟩
    · rw [hs] at hr
      cases hr
    · exact ⟨c, hc, hs ▸ hr, hheld⟩
  refine ⟨h.shards, fun conn' d hd => ?_, fun i j d d' hd hd' s hs hs' => ?_,
    fun conn' d k r hd hr => ?_, fun conn' d k r q hd hr hq => ?_, fun i j d d' k r r' hd hd' hr hr' => ?_,
    fun conn' d hd s => ?_, ?_⟩
  · rcases hold hd with ⟨-, rfl⟩ | ⟨-, hd⟩
    · exact hnodup
    · exact h.nodup conn' d hd
  · rcases hold hd with ⟨rfl, rfl⟩ | ⟨hi, hd₁⟩ <;> rcases hold hd' with ⟨rfl, rfl⟩ | ⟨hj, hd₂⟩
    · rfl
    · exact absurd hs' (hfree j d' hd₂ hj s hs)
    · exact absurd hs (hfree i d hd₁ hi s hs')
    · exact h.exclusive i j d d' hd₁ hd₂ s hs hs'
  · rcases hold hd with ⟨rfl, rfl⟩ | ⟨-, hd⟩
    · obtain ⟨c, hc, hr, hheld⟩ := hrow hr
      exact hheld _ (h.slot _ c k r hc hr)
    · exact h.slot conn' d k r hd hr
  · rcases hold hd with ⟨rfl, rfl⟩ | ⟨-, hd⟩
    · obtain ⟨c, hc, hr, -⟩ := hrow hr
      exact h.idle _ c k r q hc hr hq
    · exact h.idle conn' d k r q hd hr hq
  · rcases hold hd with ⟨rfl, rfl⟩ | ⟨hi, hd₁⟩ <;> rcases hold hd' with ⟨rfl, rfl⟩ | ⟨hj, hd₂⟩
    · rfl
    · obtain ⟨c, hc, hr, -⟩ := hrow hr
      exact h.apart _ j c d' k r r' hc hd₂ hr hr'
    · obtain ⟨c, hc, hr', -⟩ := hrow hr'
      exact h.apart i _ d c k r r' hd₁ hc hr hr'
    · exact h.apart i j d d' k r r' hd₁ hd₂ hr hr'
  · rcases hold hd with ⟨rfl, rfl⟩ | ⟨-, hd⟩
    · rcases hstarted with hs | ⟨c, hc, hs, -⟩
      · rw [hs]
        exact Nat.zero_le _
      · rw [hs]
        exact h.within _ c hc s
    · exact h.within conn' d hd s
  · refine (card_le_card fun id hid => ?_).trans h.cap
    rcases mem_allLeases.mp hid with hr | ⟨conn', d, r, hd, hr, hl⟩
    · exact mem_allLeases.mpr (.inl hr)
    · rcases hold hd with ⟨rfl, rfl⟩ | ⟨-, hd⟩
      · obtain ⟨c, hc, hr, -⟩ := hrow hr
        exact mem_allLeases.mpr (.inr ⟨_, c, r, hc, hr, hl⟩)
      · exact mem_allLeases.mpr (.inr ⟨conn', d, r, hd, hr, hl⟩)

section Round

variable (h : σ.Capped gate) (hc : σ.claims.get? conn = some c) (hnow : now ≤ σ.clock)
  {rows : Table TaskId Runtime}
  (hrows : ∀ k r, rows.get? k = some r → σ.Free k ∧ ∃ q, σ.runtime.get? k = some q ∧ q.state = .ready)
  (hroom : (rows.rows.length : Int) ≤ concRoom σ.shards c.held (σ.rooms gate c now))
  (hslots : rows.rows.map (fun e => e.2.admissionShard.getD 0 % σ.shards) =
    slots (some (σ.rooms gate c now)) c.held rows.rows.length)

theorem card_slots_le {s : Nat} (hnodup : c.held.Nodup) (hslots :
    rows.rows.map (fun e => e.2.admissionShard.getD 0 % σ.shards) =
      slots (some (σ.rooms gate c now)) c.held rows.rows.length) :
    (rows.having (gate.leasesIn t σ.shards s)).card ≤ (σ.rooms gate c now s).toNat := by
  rw [Table.card_having, Table.count]
  calc rows.rows.countP (fun e => gate.leasesIn t σ.shards s e.2)
      ≤ rows.rows.countP (fun e => e.2.admissionShard.getD 0 % σ.shards == s) := by
        refine List.countP_mono_left fun e _ hl => ?_
        exact beq_iff_eq.mpr (Gate.leasesIn_iff.mp hl).2
    _ = (slots (some (σ.rooms gate c now)) c.held rows.rows.length).count s := by
        rw [← hslots, List.count, List.countP_map]
        rfl
    _ ≤ _ := count_slots_le hnodup

include h hc hnow hrows hroom hslots

theorem Capped.round {fenceSeq : Nat} {expired : List Expired} :
    ({ σ with fenceSeq, claims := σ.claims.put conn ⟨c.held, c.started.overlay rows, expired⟩ }).Capped
      gate := by
  have hold {conn' : Nat} {d : OpenClaim}
      (hd : (σ.claims.put conn ⟨c.held, c.started.overlay rows, expired⟩).get? conn' = some d) :
      conn' = conn ∧ d = ⟨c.held, c.started.overlay rows, expired⟩ ∨ conn' ≠ conn ∧ σ.claims.get? conn' = some d := by
    rw [Table.get?_put] at hd
    split at hd
    · rename_i hk
      exact .inl ⟨hk, (Option.some.inj hd).symm⟩
    · rename_i hk
      exact .inr ⟨hk, hd⟩
  -- A row of the claim is new, or was started before.
  have hrow {k : TaskId} {r : Runtime} (hr : (c.started.overlay rows).get? k = some r) :
      rows.get? k = some r ∨ c.started.get? k = some r := by
    rw [Table.get?_overlay] at hr
    cases hk : rows.get? k with
    | none => exact .inr (by simpa [hk] using hr)
    | some q => exact .inl (by simpa [hk] using hr)
  have hslot {k : TaskId} {r : Runtime} (hr : rows.get? k = some r) : r.admissionShard.getD 0 % σ.shards ∈ c.held := by
    have hmem : r.admissionShard.getD 0 % σ.shards ∈ slots (some (σ.rooms gate c now)) c.held rows.rows.length := by
      rw [← hslots]
      exact List.mem_map.mpr ⟨(k, r), Table.get?_eq_some_iff.mp hr, rfl⟩
    exact mem_of_mem_slots hmem
  refine ⟨h.shards, fun conn' d hd => ?_, fun i j d d' hd hd' s hs hs' => ?_,
    fun conn' d k r hd hr => ?_, fun conn' d k r q hd hr hq => ?_, fun i j d d' k r r' hd hd' hr hr' => ?_,
    fun conn' d hd s => ?_, ?_⟩
  · rcases hold hd with ⟨-, rfl⟩ | ⟨-, hd⟩
    · exact h.nodup conn c hc
    · exact h.nodup conn' d hd
  · rcases hold hd with ⟨rfl, rfl⟩ | ⟨-, hd₁⟩ <;> rcases hold hd' with ⟨rfl, rfl⟩ | ⟨-, hd₂⟩
    · rfl
    · exact h.exclusive _ j c d' hc hd₂ s hs hs'
    · exact h.exclusive i _ d c hd₁ hc s hs hs'
    · exact h.exclusive i j d d' hd₁ hd₂ s hs hs'
  · rcases hold hd with ⟨rfl, rfl⟩ | ⟨-, hd⟩
    · rcases hrow hr with hr | hr
      · exact hslot hr
      · exact h.slot _ c k r hc hr
    · exact h.slot conn' d k r hd hr
  · rcases hold hd with ⟨rfl, rfl⟩ | ⟨-, hd⟩
    · rcases hrow hr with hr | hr
      · obtain ⟨-, q', hq', hready⟩ := hrows k r hr
        cases hq'.symm.trans hq
        simp [hready]
      · exact h.idle _ c k r q hc hr hq
    · exact h.idle conn' d k r q hd hr hq
  · have hnew {i : Nat} {d : OpenClaim} {k : TaskId} {r r' : Runtime} (hd : σ.claims.get? i = some d)
        (hr : d.started.get? k = some r) (hr' : (c.started.overlay rows).get? k = some r') : i = conn := by
      rcases hrow hr' with hr' | hr'
      · have hnone := (hrows k r' hr').1.2 i d hd
        rw [hnone] at hr
        cases hr
      · exact h.apart i conn d c k r r' hd hc hr hr'
    rcases hold hd with ⟨rfl, rfl⟩ | ⟨-, hd₁⟩ <;> rcases hold hd' with ⟨rfl, rfl⟩ | ⟨-, hd₂⟩
    · rfl
    · exact (hnew hd₂ hr' hr).symm
    · exact hnew hd₁ hr hr'
    · exact h.apart i j d d' k r r' hd₁ hd₂ hr hr'
  · rcases hold hd with ⟨rfl, rfl⟩ | ⟨-, hd⟩
    · have hsub : (c.started.overlay rows).having (gate.leasesIn σ.clock σ.shards s) ⊆
          c.started.having (gate.leasesIn σ.clock σ.shards s) ∪
            rows.having (gate.leasesIn σ.clock σ.shards s) := by
        intro k hk
        obtain ⟨r, hr, hl⟩ := Table.mem_having.mp hk
        rcases hrow hr with hr | hr
        · exact mem_union_right _ (Table.mem_having.mpr ⟨r, hr, hl⟩)
        · exact mem_union_left _ (Table.mem_having.mpr ⟨r, hr, hl⟩)
      have hcard := (card_le_card hsub).trans (card_union_le _ _)
      have hnewcard := @card_slots_le gate now σ.clock σ c rows s (h.nodup _ c hc) hslots
      have hwithin := h.within _ c hc s
      -- The claim sees the committed leases of the shard beside its own.
      have hsees : (σ.runtime.having (gate.leasesIn σ.clock σ.shards s)).card +
          (c.started.having (gate.leasesIn σ.clock σ.shards s)).card ≤
            ((σ.runtime.overlay c.started).having (gate.leasesIn now σ.shards s)).card := by
        rw [← card_union_of_disjoint]
        · exact card_le_card (union_subset (h.sees_committed hc hnow s) (Capped.sees_started hnow s))
        · refine disjoint_left.mpr fun k hk hk' => ?_
          obtain ⟨q, hq, hl⟩ := Table.mem_having.mp hk
          obtain ⟨r, hr, -⟩ := Table.mem_having.mp hk'
          exact h.idle _ c k r q hc hr hq (Gate.leases_iff.mp (Gate.leasesIn_iff.mp hl).1).1
      rw [rooms, shardRoom, shardLeases_eq] at hnewcard
      change ((c.started.overlay rows).having (gate.leasesIn σ.clock σ.shards s)).card ≤
        admissionShare gate.cap σ.shards s - (σ.runtime.having (gate.leasesIn σ.clock σ.shards s)).card
      omega
    · exact h.within conn' d hd s
  · have hsub : ({ σ with
        fenceSeq
        claims := σ.claims.put conn ⟨c.held, c.started.overlay rows, expired⟩ } : Admissions).allLeases gate ⊆
          σ.allLeases gate ∪ (rows.rows.map Prod.fst).toFinset := by
      intro k hk
      rcases mem_allLeases.mp hk with hr | ⟨conn', d, r, hd, hr, hl⟩
      · exact mem_union_left _ (mem_allLeases.mpr (.inl hr))
      · rcases hold hd with ⟨rfl, rfl⟩ | ⟨-, hd⟩
        · rcases hrow hr with hr | hr
          · exact mem_union_right _ (List.mem_toFinset.mpr (Table.mem_keys_iff.mpr ⟨r, hr⟩))
          · exact mem_union_left _ (mem_allLeases.mpr (.inr ⟨_, c, r, hc, hr, hl⟩))
        · exact mem_union_left _ (mem_allLeases.mpr (.inr ⟨conn', d, r, hd, hr, hl⟩))
    have hcard := (card_le_card hsub).trans (card_union_le _ _)
    have hlen := List.toFinset_card_le (rows.rows.map Prod.fst)
    rw [List.length_map] at hlen
    have hfits := h.room hc hnow
    omega

end Round

theorem Capped.claimCommit (h : σ.Capped gate) (hc : σ.claims.get? conn = some c)
    {expired : List Expired} : ({ σ with
      runtime := σ.runtime.overlay c.started, claims := σ.claims.erase conn, expired }).Capped gate := by
  have hold {conn' : Nat} {d : OpenClaim} (hd : (σ.claims.erase conn).get? conn' = some d) :
      conn' ≠ conn ∧ σ.claims.get? conn' = some d := by
    obtain ⟨hk, hd⟩ := Table.get?_erase_eq_some hd
    exact ⟨hk, hd⟩
  have hrow {k : TaskId} {r : Runtime} (hr : (σ.runtime.overlay c.started).get? k = some r) :
      c.started.get? k = some r ∨ c.started.get? k = none ∧ σ.runtime.get? k = some r := by
    rw [Table.get?_overlay] at hr
    cases hk : c.started.get? k with
    | none => exact .inr ⟨rfl, by simpa [hk] using hr⟩
    | some q => exact .inl (by simpa [hk] using hr)
  refine ⟨h.shards, fun conn' d hd => h.nodup conn' d (hold hd).2,
    fun i j d d' hd hd' => h.exclusive i j d d' (hold hd).2 (hold hd').2,
    fun conn' d k r hd => h.slot conn' d k r (hold hd).2, fun conn' d k r q hd hr hq => ?_,
    fun i j d d' k r r' hd hd' => h.apart i j d d' k r r' (hold hd).2 (hold hd').2, fun conn' d hd s => ?_, ?_⟩
  · obtain ⟨hne, hd⟩ := hold hd
    rcases hrow hq with hq | ⟨-, hq⟩
    · exact absurd (h.apart conn' conn d c k r q hd hc hr hq) hne
    · exact h.idle conn' d k r q hd hr hq
  · obtain ⟨hne, hd⟩ := hold hd
    by_cases hs : s ∈ d.held
    · -- Nothing of the committed claim lies on a shard that another claim holds.
      refine (h.within conn' d hd s).trans (Nat.sub_le_sub_left (having_mono fun k r hr hl => ?_) _)
      rcases hrow hr with hr | ⟨-, hr⟩
      · have hslot := h.slot conn c k r hc hr
        rw [(Gate.leasesIn_iff.mp hl).2] at hslot
        exact absurd (h.exclusive conn' conn d c hd hc s hs hslot) hne
      · exact ⟨r, hr, hl⟩
    · have hnone : d.started.having (gate.leasesIn σ.clock σ.shards s) = ∅ := by
        refine eq_empty_of_forall_notMem fun k hk => ?_
        obtain ⟨r, hr, hl⟩ := Table.mem_having.mp hk
        have hslot := h.slot conn' d k r hd hr
        rw [(Gate.leasesIn_iff.mp hl).2] at hslot
        exact hs hslot
      change (d.started.having (gate.leasesIn σ.clock σ.shards s)).card ≤ _
      rw [hnone, card_empty]
      exact Nat.zero_le _
  · refine (card_le_card fun k hk => ?_).trans h.cap
    rcases mem_allLeases.mp hk with ⟨r, hr, hl⟩ | ⟨conn', d, r, hd, hr, hl⟩
    · rcases hrow hr with hr | ⟨-, hr⟩
      · exact mem_allLeases.mpr (.inr ⟨conn, c, r, hc, hr, hl⟩)
      · exact mem_allLeases.mpr (.inl ⟨r, hr, hl⟩)
    · exact mem_allLeases.mpr (.inr ⟨conn', d, r, (hold hd).2, hr, hl⟩)

theorem Capped.claimRollback (h : σ.Capped gate) : ({ σ with claims := σ.claims.erase conn }).Capped gate := by
  have hold {conn' : Nat} {d : OpenClaim} (hd : (σ.claims.erase conn).get? conn' = some d) :
      σ.claims.get? conn' = some d := by
    obtain ⟨-, hd⟩ := Table.get?_erase_eq_some hd
    exact hd
  refine ⟨h.shards, fun conn' d hd => h.nodup conn' d (hold hd),
    fun i j d d' hd hd' => h.exclusive i j d d' (hold hd) (hold hd'),
    fun conn' d k r hd => h.slot conn' d k r (hold hd), fun conn' d k r q hd => h.idle conn' d k r q (hold hd),
    fun i j d d' k r r' hd hd' => h.apart i j d d' k r r' (hold hd) (hold hd'),
    fun conn' d hd => h.within conn' d (hold hd), ?_⟩
  refine (card_le_card fun k hk => ?_).trans h.cap
  rcases mem_allLeases.mp hk with hr | ⟨conn', d, r, hd, hr, hl⟩
  · exact mem_allLeases.mpr (.inl hr)
  · exact mem_allLeases.mpr (.inr ⟨conn', d, r, hold hd, hr, hl⟩)

theorem Step.capped (hs : Step gate σ label σ') (hprompt : σ.Prompt label) (h : σ.Capped gate) : σ'.Capped gate := by
  have hstarted {k : TaskId} (hfree : σ.Free k) : ¬∃ conn c r, σ.claims.get? conn = some c ∧
      c.started.get? k = some r := by
    rintro ⟨conn, c, r, hc, hr⟩
    rw [hfree.2 conn c hc] at hr
    cases hr
  cases hs with
  | tick ht => exact h.tick ht
  | beat | read | update | rollback =>
    exact ⟨h.shards, h.nodup, h.exclusive, h.slot, h.idle, h.apart, h.within, h.cap⟩
  | @commit conn b now r hb hnow hup hr =>
    exact h.renewed rfl rfl rfl hr rfl (hprompt conn b now r rfl hb hnow hr)
  | @heartbeat id worker fence r hr ho hfree leaseMs =>
    refine h.renewed rfl rfl rfl hr rfl fun hne => ?_
    rcases renewed_cases r σ.clock leaseMs with hsame | ⟨hlive, -⟩
    · exact absurd hsame hne
    · exact hlive
  | write hs hfence hfree =>
    refine h.put rfl rfl rfl rfl (fun hst => absurd hst (hstarted hfree)) fun hl => ?_
    exact absurd (Gate.leases_iff.mp hl).1 hs
  | start hcounts hfence hfree =>
    refine h.put rfl rfl rfl rfl (fun hst => absurd hst (hstarted hfree)) fun hl => ?_
    rw [(Gate.leases_iff.mp hl).2.1] at hcounts
    cases hcounts
  | delete hfree =>
    refine h.commit rfl rfl rfl rfl (fun conn c k r q hc hr hq => ?_) fun k q hq hl => ?_
    · obtain ⟨-, hq⟩ := Table.get?_erase_eq_some hq
      exact h.idle conn c k r q hc hr hq
    · obtain ⟨-, hq⟩ := Table.get?_erase_eq_some hq
      exact ⟨q, hq, hl, rfl⟩
  | reshard hnone hpos =>
    have habsurd {conn : Nat} {c : OpenClaim} {P : Prop} (hc : σ.claims.get? conn = some c) : P := by
      rw [hnone] at hc
      cases hc
    exact ⟨hpos, fun _ _ hc => habsurd hc, fun _ _ _ _ hc => habsurd hc, fun _ _ _ _ hc => habsurd hc,
      fun _ _ _ _ _ hc => habsurd hc, fun _ _ _ _ _ _ _ hc => habsurd hc, fun _ _ hc => habsurd hc, h.cap⟩
  | claim hconn hnodup hfree =>
    exact h.lock (.inl rfl) hnodup fun conn' d hd _ s hs => hfree conn' d hd s hs
  | @borrow conn c shard hc hfree =>
    refine h.lock (.inr ⟨c, hc, rfl, fun s hs => List.mem_append_left _ hs⟩) ?_ fun conn' d hd hne s hs hs' => ?_
    · exact List.nodup_append.mpr ⟨h.nodup conn c hc, List.nodup_singleton _, fun a ha b hb hab => by
        cases List.mem_singleton.mp hb
        exact hfree conn c hc (hab ▸ ha)⟩
    · rcases List.mem_append.mp hs with hs | hs
      · exact hne (h.exclusive conn' conn d c hd hc s hs' hs)
      · cases List.mem_singleton.mp hs
        exact hfree conn' d hd hs'
  | @round conn c now rows fenceSeq hc hnow hnodup leaseMs hlease hrows hfences hseq hroom hslots =>
    refine @Capped.round gate now σ conn c h hc hnow ⟨rows, hnodup⟩ (fun k r hr => ?_) hroom hslots _ _
    obtain ⟨hfree, q, hq, hready, -⟩ := hrows (k, r) (Table.get?_eq_some_iff.mp hr)
    exact ⟨hfree, q, hq, hready⟩
  | claimCommit hc => exact h.claimCommit hc
  | claimRollback => exact h.claimRollback

/-! ## Leases counted as expired -/

def Seen (σ : Admissions) (e : Expired) : Prop := e ∈ σ.expired ∨ ∃ conn c, σ.claims.get? conn = some c ∧ e ∈ c.expired

/-- A lease that was counted as expired stays expired, and its task runs again under a later fence. -/
structure Settled (σ : Admissions) : Prop where
  fences : ∀ id r, σ.runtime.get? id = some r → r.fenceToken ≤ σ.fenceSeq
  started : ∀ conn c id r, σ.claims.get? conn = some c → c.started.get? id = some r → r.fenceToken ≤ σ.fenceSeq
  fresh : ∀ conn c e r, σ.claims.get? conn = some c → c.started.get? e.taskId = some r → σ.Seen e →
    e.fenceToken < r.fenceToken
  drawn : ∀ e, σ.Seen e → e.fenceToken ≤ σ.fenceSeq ∧ e.now ≤ σ.clock
  stale : ∀ e r, σ.Seen e → σ.runtime.get? e.taskId = some r → r.state = .active →
    r.fenceToken = e.fenceToken → r.expiresAt.any (e.now < ·) = false

namespace Settled

variable (h : σ.Settled)

include h

theorem commit (hclaims : σ'.claims = σ.claims) (hclock : σ'.clock = σ.clock)
    (hexpired : σ'.expired = σ.expired) (hseq : σ.fenceSeq ≤ σ'.fenceSeq)
    (hfence : ∀ id r, σ'.runtime.get? id = some r → r.fenceToken ≤ σ'.fenceSeq)
    (hstale : ∀ e r, σ.Seen e → σ'.runtime.get? e.taskId = some r → r.state = .active →
      r.fenceToken = e.fenceToken → r.expiresAt.any (e.now < ·) = false) : σ'.Settled := by
  obtain ⟨clock, fenceSeq, shards, runtime, beats, claims, expired⟩ := σ'
  cases hclaims
  cases hclock
  cases hexpired
  exact ⟨hfence, fun conn c id r hc hr => (h.started conn c id r hc hr).trans hseq, h.fresh,
    fun e he => ⟨(h.drawn e he).1.trans hseq, (h.drawn e he).2⟩, hstale⟩

theorem put (hclaims : σ'.claims = σ.claims) (hclock : σ'.clock = σ.clock)
    (hexpired : σ'.expired = σ.expired) (hseq : σ.fenceSeq ≤ σ'.fenceSeq)
    (ht : σ'.runtime = σ.runtime.put id r') (hfence : r'.fenceToken ≤ σ'.fenceSeq)
    (hstale : ∀ e, σ.Seen e → e.taskId = id → r'.state = .active → r'.fenceToken = e.fenceToken →
      r'.expiresAt.any (e.now < ·) = false) : σ'.Settled := by
  refine h.commit hclaims hclock hexpired hseq (fun k q hq => ?_) fun e q he hq => ?_
  · rw [ht] at hq
    rcases Table.get?_put_cases hq with ⟨-, rfl⟩ | ⟨-, hq⟩
    · exact hfence
    · exact (h.fences k q hq).trans hseq
  · rw [ht] at hq
    rcases Table.get?_put_cases hq with ⟨hk, rfl⟩ | ⟨-, hq⟩
    · exact hstale e he hk
    · exact h.stale e q he hq

theorem renewed (hclaims : σ'.claims = σ.claims) (hclock : σ'.clock = σ.clock)
    (hexpired : σ'.expired = σ.expired) (hseq : σ'.fenceSeq = σ.fenceSeq) {leaseMs : Nat}
    (hr : σ.runtime.get? id = some r) (ht : σ'.runtime = σ.runtime.put id (r.renewed now leaseMs))
    (hprompt : r.renewed now leaseMs ≠ r → r.expiresAt.any (σ.clock < ·) = true) : σ'.Settled := by
  obtain ⟨hstate, hfence, -⟩ := renewed_same r now leaseMs
  refine h.put hclaims hclock hexpired hseq.ge ht ?_ fun e he hk hs hf => ?_
  · rw [hfence, hseq]
    exact h.fences id r hr
  · rw [hstate] at hs
    rw [hfence] at hf
    have hstale := h.stale e r he (hk ▸ hr) hs hf
    by_cases hsame : r.renewed now leaseMs = r
    · rwa [hsame]
    · obtain ⟨u, hu, hlt⟩ := (Option.any_eq_true _ _).mp (hprompt hsame)
      rw [hu, Option.any_some, decide_eq_false_iff_not] at hstale
      exact absurd (lt_of_le_of_lt (h.drawn e he).2 (of_decide_eq_true hlt)) hstale

omit h in
theorem claims (h : σ.Settled) {claims : Table Nat OpenClaim}
    (hclaims : ∀ conn c, claims.get? conn = some c → (∀ id, c.started.get? id = none) ∧ c.expired = [] ∨
      ∃ d, σ.claims.get? conn = some d ∧ c.started = d.started ∧ c.expired = d.expired) :
    ({ σ with claims }).Settled := by
  have hseen {e : Expired} (he : ({ σ with claims } : Admissions).Seen e) : σ.Seen e := by
    rcases he with he | ⟨conn, c, hc, he⟩
    · exact .inl he
    · rcases hclaims conn c hc with ⟨-, hnil⟩ | ⟨d, hd, -, heq⟩
      · rw [hnil] at he
        cases he
      · exact .inr ⟨conn, d, hd, heq ▸ he⟩
  have hstarted {conn : Nat} {c : OpenClaim} {id : TaskId} {r : Runtime} (hc : claims.get? conn = some c)
      (hr : c.started.get? id = some r) : ∃ d, σ.claims.get? conn = some d ∧ d.started.get? id = some r := by
    rcases hclaims conn c hc with ⟨hnone, -⟩ | ⟨d, hd, heq, -⟩
    · rw [hnone id] at hr
      cases hr
    · exact ⟨d, hd, heq ▸ hr⟩
  refine ⟨h.fences, fun conn c id r hc hr => ?_, fun conn c e r hc hr he => ?_, fun e he => h.drawn e (hseen he),
    fun e r he => h.stale e r (hseen he)⟩
  · obtain ⟨d, hd, hr⟩ := hstarted hc hr
    exact h.started conn d id r hd hr
  · obtain ⟨d, hd, hr⟩ := hstarted hc hr
    exact h.fresh conn d e r hd hr (hseen he)

end Settled

theorem Seen.round {rows : Table TaskId Runtime} {fenceSeq : Nat} {e : Expired}
    (hc : σ.claims.get? conn = some c)
    (he : ({ σ with
      fenceSeq
      claims := σ.claims.put conn
        ⟨c.held, c.started.overlay rows, c.expired ++ σ.countedExpired gate now⟩ } : Admissions).Seen e) :
    σ.Seen e ∨ e ∈ σ.countedExpired gate now := by
  rcases he with he | ⟨conn', d, hd, he⟩
  · exact .inl (.inl he)
  · rcases Table.get?_put_cases hd with ⟨-, rfl⟩ | ⟨-, hd⟩
    · rcases List.mem_append.mp he with he | he
      · exact .inl (.inr ⟨conn, c, hc, he⟩)
      · exact .inr he
    · exact .inl (.inr ⟨conn', d, hd, he⟩)

theorem mem_countedExpired {e : Expired} (he : e ∈ σ.countedExpired gate now) :
    e.now = now ∧ ∃ r, σ.runtime.get? e.taskId = some r ∧ r.state = .active ∧
      r.fenceToken = e.fenceToken ∧ r.expiresAt.any (now < ·) = false := by
  obtain ⟨⟨k, r⟩, hk, rfl⟩ := List.mem_map.mp he
  obtain ⟨hr, hp⟩ := Table.mem_select.mp hk
  simp only [Bool.and_eq_true, beq_iff_eq, Bool.not_eq_true'] at hp
  exact ⟨rfl, r, hr, hp.1.1, rfl, hp.2⟩

theorem Settled.round (h : σ.Settled) (hcap : σ.Capped gate) (hc : σ.claims.get? conn = some c)
    (hnow : now ≤ σ.clock) {rows : Table TaskId Runtime} {fenceSeq : Nat}
    (hfences : ∀ k r, rows.get? k = some r → σ.fenceSeq < r.fenceToken ∧ r.fenceToken ≤ fenceSeq)
    (hseq : σ.fenceSeq ≤ fenceSeq) : ({ σ with
      fenceSeq
      claims := σ.claims.put conn
        ⟨c.held, c.started.overlay rows, c.expired ++ σ.countedExpired gate now⟩ }).Settled := by
  have hdrawn {e : Expired} (he : σ.Seen e ∨ e ∈ σ.countedExpired gate now) :
      e.fenceToken ≤ σ.fenceSeq ∧ e.now ≤ σ.clock := by
    rcases he with he | he
    · exact h.drawn e he
    · obtain ⟨rfl, r, hr, -, hf, -⟩ := mem_countedExpired he
      exact ⟨hf ▸ h.fences _ r hr, hnow⟩
  have hold {conn' : Nat} {d : OpenClaim} {k : TaskId} {r : Runtime}
      (hd : (σ.claims.put conn
        ⟨c.held, c.started.overlay rows, c.expired ++ σ.countedExpired gate now⟩).get? conn' = some d)
      (hr : d.started.get? k = some r) :
      (σ.fenceSeq < r.fenceToken ∧ r.fenceToken ≤ fenceSeq) ∨
        ∃ conn d, σ.claims.get? conn = some d ∧ d.started.get? k = some r := by
    rcases Table.get?_put_cases hd with ⟨-, rfl⟩ | ⟨-, hd⟩
    · rw [Table.get?_overlay] at hr
      cases hk : rows.get? k with
      | none => exact .inr ⟨conn, c, hc, by simpa [hk] using hr⟩
      | some q =>
        rw [hk] at hr
        cases hr
        exact .inl (hfences k _ hk)
    · exact .inr ⟨conn', d, hd, hr⟩
  refine ⟨fun id r hr => (h.fences id r hr).trans hseq, fun conn' d k r hd hr => ?_,
    fun conn' d e r hd hr he => ?_, fun e he => ?_, fun e r he hr hs hf => ?_⟩
  · rcases hold hd hr with hnew | ⟨i, d, hd, hr⟩
    · exact hnew.2
    · exact (h.started i d k r hd hr).trans hseq
  · have he := Seen.round hc he
    rcases hold hd hr with hnew | ⟨i, d, hd, hr⟩
    · exact lt_of_le_of_lt (hdrawn he).1 hnew.1
    · rcases he with he | he
      · exact h.fresh i d e r hd hr he
      · -- The row of a started task is not active before the commit, so it was not counted.
        obtain ⟨-, q, hq, hs, -⟩ := mem_countedExpired he
        exact absurd hs (hcap.idle i d _ r q hd hr hq)
  · obtain ⟨hf, hn⟩ := hdrawn (Seen.round hc he)
    exact ⟨hf.trans hseq, hn⟩
  · rcases Seen.round hc he with he | he
    · exact h.stale e r he hr hs hf
    · obtain ⟨rfl, q, hq, -, -, hexp⟩ := mem_countedExpired he
      cases hq.symm.trans hr
      exact hexp

theorem Settled.claimCommit (h : σ.Settled) (hc : σ.claims.get? conn = some c) : ({ σ with
      runtime := σ.runtime.overlay c.started
      claims := σ.claims.erase conn
      expired := σ.expired ++ c.expired }).Settled := by
  have hold {conn' : Nat} {d : OpenClaim} (hd : (σ.claims.erase conn).get? conn' = some d) :
      σ.claims.get? conn' = some d := by
    obtain ⟨-, hd⟩ := Table.get?_erase_eq_some hd
    exact hd
  have hseen {e : Expired} (he : ({ σ with
      runtime := σ.runtime.overlay c.started
      claims := σ.claims.erase conn
      expired := σ.expired ++ c.expired } : Admissions).Seen e) : σ.Seen e := by
    rcases he with he | ⟨conn', d, hd, he⟩
    · rcases List.mem_append.mp he with he | he
      · exact .inl he
      · exact .inr ⟨conn, c, hc, he⟩
    · exact .inr ⟨conn', d, hold hd, he⟩
  have hrow {k : TaskId} {r : Runtime} (hr : (σ.runtime.overlay c.started).get? k = some r) :
      c.started.get? k = some r ∨ σ.runtime.get? k = some r := by
    rw [Table.get?_overlay] at hr
    cases hk : c.started.get? k with
    | none => exact .inr (by simpa [hk] using hr)
    | some q => exact .inl (by simpa [hk] using hr)
  refine ⟨fun k r hr => ?_, fun conn' d k r hd => h.started conn' d k r (hold hd),
    fun conn' d e r hd hr he => h.fresh conn' d e r (hold hd) hr (hseen he),
    fun e he => h.drawn e (hseen he), fun e r he hr hs hf => ?_⟩
  · rcases hrow hr with hr | hr
    · exact h.started conn c k r hc hr
    · exact h.fences k r hr
  · rcases hrow hr with hr | hr
    · exact absurd hf (h.fresh conn c e r hc hr (hseen he)).ne'
    · exact h.stale e r (hseen he) hr hs hf

theorem Step.settled (hs : Step gate σ label σ') (hprompt : σ.Prompt label) (hcap : σ.Capped gate)
    (h : σ.Settled) : σ'.Settled := by
  cases hs with
  | tick ht =>
    exact ⟨h.fences, h.started, h.fresh, fun e he => ⟨(h.drawn e he).1, (h.drawn e he).2.trans ht⟩, h.stale⟩
  | beat | read | update | rollback | reshard =>
    exact ⟨h.fences, h.started, h.fresh, h.drawn, h.stale⟩
  | @commit conn b now r hb hnow hup hr =>
    exact h.renewed rfl rfl rfl rfl hr rfl (hprompt conn b now r rfl hb hnow hr)
  | @heartbeat id worker fence r hr ho hfree leaseMs =>
    refine h.renewed rfl rfl rfl rfl hr rfl fun hne => ?_
    rcases renewed_cases r σ.clock leaseMs with hsame | ⟨hlive, -⟩
    · exact absurd hsame hne
    · exact hlive
  | write hs hfence =>
    exact h.put rfl rfl rfl le_rfl rfl hfence fun e _ _ hactive => absurd hactive hs
  | start _ hfence =>
    refine h.put rfl rfl rfl hfence.le rfl le_rfl fun e he _ _ hf => ?_
    exact absurd hf ((h.drawn e he).1.trans_lt hfence).ne'
  | delete =>
    refine h.commit rfl rfl rfl le_rfl (fun k r hr => ?_) fun e r he hr => ?_
    · obtain ⟨-, hr⟩ := Table.get?_erase_eq_some hr
      exact h.fences k r hr
    · obtain ⟨-, hr⟩ := Table.get?_erase_eq_some hr
      exact h.stale e r he hr
  | claim =>
    refine h.claims fun conn' d hd => ?_
    rcases Table.get?_put_cases hd with ⟨-, rfl⟩ | ⟨-, hd⟩
    · exact .inl ⟨fun _ => rfl, rfl⟩
    · exact .inr ⟨d, hd, rfl, rfl⟩
  | @borrow conn c shard hc =>
    refine h.claims fun conn' d hd => ?_
    rcases Table.get?_put_cases hd with ⟨hk, rfl⟩ | ⟨-, hd⟩
    · exact .inr ⟨c, hk ▸ hc, rfl, rfl⟩
    · exact .inr ⟨d, hd, rfl, rfl⟩
  | @round conn c now rows fenceSeq hc hnow hnodup leaseMs hlease hrows hfences hseq =>
    refine @Settled.round gate now σ conn c h hcap hc hnow ⟨rows, hnodup⟩ fenceSeq (fun k r hr => ?_) hseq
    exact hfences (k, r) (Table.get?_eq_some_iff.mp hr)
  | claimCommit hc => exact h.claimCommit hc
  | claimRollback =>
    refine h.claims fun conn' d hd => ?_
    obtain ⟨-, hd⟩ := Table.get?_erase_eq_some hd
    exact .inr ⟨d, hd, rfl, rfl⟩

/-! ## Runs -/

variable {σ₀ : Admissions}

theorem Fresh.capped (h : σ₀.Fresh) (hcap : (σ₀.runtime.having (gate.leases σ₀.clock)).card ≤ gate.cap) :
    σ₀.Capped gate := by
  obtain ⟨-, hclaims, -, hshards, -⟩ := h
  have habsurd {conn : Nat} {c : OpenClaim} {P : Prop} (hc : σ₀.claims.get? conn = some c) : P := by
    rw [hclaims] at hc
    cases hc
  refine ⟨hshards, fun _ _ hc => habsurd hc, fun _ _ _ _ hc => habsurd hc, fun _ _ _ _ hc => habsurd hc,
    fun _ _ _ _ _ hc => habsurd hc, fun _ _ _ _ _ _ _ hc => habsurd hc, fun _ _ hc => habsurd hc, ?_⟩
  refine (card_le_card fun k hk => ?_).trans hcap
  rcases mem_allLeases.mp hk with hr | ⟨conn, c, r, hc, -⟩
  · exact Table.mem_having.mpr hr
  · exact habsurd hc

theorem Fresh.settled (h : σ₀.Fresh) : σ₀.Settled := by
  obtain ⟨-, hclaims, hexpired, -, hfences⟩ := h
  have hseen {e : Expired} {P : Prop} (he : σ₀.Seen e) : P := by
    rcases he with he | ⟨conn, c, hc, -⟩
    · rw [hexpired] at he
      cases he
    · rw [hclaims] at hc
      cases hc
  refine ⟨hfences, fun conn c id r hc => ?_, fun _ _ _ _ _ _ he => hseen he, fun _ he => hseen he,
    fun _ _ he => hseen he⟩
  rw [hclaims] at hc
  cases hc

theorem Reaches.invariants (hr : Reaches gate σ₀ σ) (hcap : σ₀.Capped gate) (h : σ₀.Settled) :
    σ.Capped gate ∧ σ.Settled := by
  induction hr with
  | refl => exact ⟨hcap, h⟩
  | tail _ hs hprompt ih => exact ⟨hs.capped hprompt ih.1, hs.settled hprompt ih.1 ih.2⟩

theorem Reaches.of_atomic (h : Relation.ReflTransGen (fun σ σ' => Step gate σ none σ') σ₀ σ) : Reaches gate σ₀ σ := by
  induction h with
  | refl => exact .refl
  | tail _ hs ih =>
    refine ih.tail hs fun conn b now r hlabel => ?_
    cases hlabel

theorem Capped.card_le (h : σ.Capped gate) : (σ.runtime.having (gate.leases σ.clock)).card ≤ gate.cap := by
  refine (card_le_card fun k hk => ?_).trans h.cap
  exact mem_allLeases.mpr (.inl (Table.mem_having.mp hk))

end Admissions

end Workhorse
