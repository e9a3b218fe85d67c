import Mathlib.Tactic.Ring
import Workhorse.Stats.Theorems

/-!
# Progress of the watermark

A pass starts behind the watermark by the recompute depth and stops after a bounded number of buckets, so
the two together decide whether the watermark moves.
-/

namespace Workhorse

variable {pass : RollupPass} {s s' : StatState} {raw : Buckets}

def rollupPasses : List (RollupPass × Buckets) → StatState → Except String StatState
  | [], s => .ok s
  | p :: rest, s => p.1.run s p.2 >>= rollupPasses rest

theorem oneMinute_pos : 0 < oneMinute := by decide

namespace RollupPass

theorem rolledUpThrough_run (pass : RollupPass) (s : StatState) (raw : Buckets)
    (hmax : 1 ≤ pass.maxBuckets) (hlimit : pass.maxBuckets ≤ 100000) (hdue : pass.skips s = false) :
    ∃ s', pass.run s raw = .ok s' ∧
      s'.rolledUpThrough = if pass.start s < pass.stop s then pass.stop s else s.rolledUpThrough := by
  refine ⟨pass.retain (pass.rollUp s raw), ?_, ?_⟩
  · unfold run
    rw [if_neg (by omega), hdue]
    rfl
  · unfold retain rollUp
    split <;> rfl

/-- Below the last closed minute, a pass stops at that minute or the bucket limit above its start. -/
theorem stop_eq (hbehind : s.rolledUpThrough < pass.closed) : pass.stop s = min pass.closed
      (s.rolledUpThrough + ((pass.maxBuckets : Int) - pass.policy.recomputeBuckets) * oneMinute) := by
  have hdepth : 0 ≤ (pass.policy.recomputeBuckets : Int) * oneMinute :=
    mul_nonneg (Int.natCast_nonneg _) oneMinute_pos.le
  have hstart : pass.start s = s.rolledUpThrough - pass.policy.recomputeBuckets * oneMinute := by
    refine min_eq_left ?_
    linarith
  rw [stop, hstart]
  congr 1
  ring

theorem start_lt_stop (hmax : 1 ≤ pass.maxBuckets) (hbehind : s.rolledUpThrough < pass.closed) :
    pass.start s < pass.stop s := by
  have hpos := oneMinute_pos
  have hdepth : 0 ≤ (pass.policy.recomputeBuckets : Int) * oneMinute := mul_nonneg (Int.natCast_nonneg _) hpos.le
  have hbuckets : oneMinute ≤ (pass.maxBuckets : Int) * oneMinute :=
    le_mul_of_one_le_left hpos.le (by exact_mod_cast hmax)
  have hle : pass.start s ≤ s.rolledUpThrough - pass.policy.recomputeBuckets * oneMinute := min_le_left _ _
  refine lt_min ?_ ?_
  · linarith
  · linarith

theorem watermark_run (raw : Buckets) (hmax : 1 ≤ pass.maxBuckets) (hlimit : pass.maxBuckets ≤ 100000)
    (hdue : pass.skips s = false) (hbehind : s.rolledUpThrough < pass.closed) : ∃ s',
      pass.run s raw = .ok s' ∧ s'.rolledUpThrough = min pass.closed
        (s.rolledUpThrough + ((pass.maxBuckets : Int) - pass.policy.recomputeBuckets) * oneMinute) := by
  obtain ⟨s', hrun, hwatermark⟩ := rolledUpThrough_run pass s raw hmax hlimit hdue
  rw [if_pos (start_lt_stop hmax hbehind), stop_eq hbehind] at hwatermark
  exact ⟨s', hrun, hwatermark⟩

/-- Passes that write more buckets than they recompute reach the last closed minute, a minute at a time
or faster. -/
theorem reaches_closed (pass : RollupPass) (raw : Buckets) (hmax : 1 ≤ pass.maxBuckets)
    (hlimit : pass.maxBuckets ≤ 100000) (hforce : pass.force = true)
    (hdepth : pass.policy.recomputeBuckets < pass.maxBuckets) (minutes : Nat)
    (hle : s.rolledUpThrough ≤ pass.closed) (hnear : pass.closed ≤ s.rolledUpThrough + minutes * oneMinute) :
    ∃ n s', rollupPasses (List.replicate n (pass, raw)) s = .ok s' ∧ s'.rolledUpThrough = pass.closed := by
  induction minutes generalizing s with
  | zero =>
    refine ⟨0, s, rfl, le_antisymm hle ?_⟩
    simpa using hnear
  | succ minutes ih =>
    rcases hle.eq_or_lt with heq | hbehind
    · exact ⟨0, s, rfl, heq⟩
    · have hdue : pass.skips s = false := by simp [skips, hforce]
      obtain ⟨s₁, hrun, hwatermark⟩ := watermark_run raw hmax hlimit hdue hbehind
      have hgap : (1 : Int) ≤ (pass.maxBuckets : Int) - pass.policy.recomputeBuckets := by omega
      have hstep : oneMinute ≤ ((pass.maxBuckets : Int) - pass.policy.recomputeBuckets) * oneMinute :=
        le_mul_of_one_le_left oneMinute_pos.le hgap
      have hnear₁ : pass.closed ≤ s₁.rolledUpThrough + minutes * oneMinute := by
        push_cast at hnear
        rw [hwatermark, ← sub_le_iff_le_add]
        refine le_min ?_ ?_
        · have := mul_nonneg (Int.natCast_nonneg minutes) oneMinute_pos.le
          linarith
        · linarith
      obtain ⟨n, s', hpasses, hreached⟩ := ih (hwatermark ▸ min_le_left _ _) hnear₁
      refine ⟨n + 1, s', ?_, hreached⟩
      change (pass.run s raw >>= rollupPasses (List.replicate n (pass, raw))) = .ok s'
      rw [hrun]
      exact hpasses

end RollupPass

/-- With a complete minute above the watermark, a pass that is due moves the watermark strictly forward,
and repeated passes reach the last complete minute, exactly when a pass may write more buckets than it
recomputes. -/
theorem watermark_advances_iff (hmax : 1 ≤ pass.maxBuckets) (hlimit : pass.maxBuckets ≤ 100000)
    (hdue : pass.skips s = false) (hbehind : s.rolledUpThrough + oneMinute ≤ pass.closed) :
    ((∃ s', pass.run s raw = .ok s' ∧ s.rolledUpThrough < s'.rolledUpThrough) ∧
      ∃ n s', rollupPasses (List.replicate n ({ pass with force := true }, raw)) s = .ok s' ∧
        s'.rolledUpThrough = pass.closed) ↔
    pass.policy.recomputeBuckets < pass.maxBuckets := by
  have hlt : s.rolledUpThrough < pass.closed := by
    have := oneMinute_pos
    linarith
  obtain ⟨s₁, hrun, hwatermark⟩ := RollupPass.watermark_run raw hmax hlimit hdue hlt
  constructor
  · rintro ⟨⟨s', hs', hforward⟩, -⟩
    cases hrun.symm.trans hs'
    by_contra hdepth
    have hback : ((pass.maxBuckets : Int) - pass.policy.recomputeBuckets) * oneMinute ≤ 0 :=
      mul_nonpos_of_nonpos_of_nonneg (by omega) oneMinute_pos.le
    have hle := min_le_right pass.closed
      (s.rolledUpThrough + ((pass.maxBuckets : Int) - pass.policy.recomputeBuckets) * oneMinute)
    linarith
  · intro hdepth
    refine ⟨⟨s₁, hrun, ?_⟩, ?_⟩
    · have hstep : 0 < ((pass.maxBuckets : Int) - pass.policy.recomputeBuckets) * oneMinute :=
        mul_pos (by omega) oneMinute_pos
      rw [hwatermark]
      exact lt_min hlt (by linarith)
    · refine RollupPass.reaches_closed { pass with force := true } raw
        hmax hlimit rfl hdepth (pass.closed - s.rolledUpThrough).toNat hlt.le ?_
      have hpos : 0 ≤ pass.closed - s.rolledUpThrough := by linarith
      have hone : pass.closed - s.rolledUpThrough ≤ (pass.closed - s.rolledUpThrough) * oneMinute :=
        le_mul_of_one_le_right hpos (by decide)
      rw [Int.toNat_of_nonneg hpos]
      change pass.closed ≤ s.rolledUpThrough + (pass.closed - s.rolledUpThrough) * oneMinute
      linarith

/-- The deepest recompute window that the policy allows, with the default bucket limit. -/
def deepRecompute : RollupPass :=
  ⟨true, 10 * oneDay + 5 * oneMinute, 240, { defaultPolicy with recomputeBuckets := 1440 }, fun _ => some 0⟩

/-- Five closed minutes lie above the watermark, and the pass moves it back by 1200 minutes. -/
theorem deepRecompute_moves_back : ∃ s', deepRecompute.run (.installed (10 * oneDay)) .empty = .ok s' ∧
    s'.rolledUpThrough = 10 * oneDay - 1200 * oneMinute := by
  obtain ⟨s', hrun, hwatermark⟩ := RollupPass.rolledUpThrough_run deepRecompute
    (.installed (10 * oneDay)) .empty (by decide) (by decide) rfl
  exact ⟨s', hrun, hwatermark.trans (by decide +kernel)⟩

theorem watermark_advances_iff_beforeTwelve : beforeTwelve.skips (.installed eleven) = false ∧
    ∃ s', beforeTwelve.run (.installed eleven) .empty = .ok s' ∧ eleven < s'.rolledUpThrough := by
  have hdue : beforeTwelve.skips (.installed eleven) = false := by decide +kernel
  have hbehind : (StatState.installed eleven).rolledUpThrough + oneMinute ≤ beforeTwelve.closed := by
    decide +kernel
  have hiff := @watermark_advances_iff beforeTwelve (.installed eleven) .empty (by decide) (by decide)
    hdue hbehind
  exact ⟨hdue, (hiff.mpr (by decide)).1⟩

end Workhorse
