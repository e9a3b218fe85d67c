import Workhorse.Group.Counters
import Workhorse.Lib.TableCount

/-!
# Tallies of members

What the shard rows should say, read off the membership rows, and what holds of the rows that an open
transaction has locked.
-/

namespace Workhorse

variable {shardCount : GroupId → Nat}

def Member.inColumn (m : Member) (column : Column) : Bool :=
  column = .total || m.outcome.any fun o => Column.of o = column

section Tally

variable (shardCount) (members : Table TaskId Member) (key : ShardKey)

def tally (column : Column) : Nat := members.count fun _ m => m.key shardCount = key && m.inColumn column

def unfinished : Nat := members.count fun _ m => m.key shardCount = key && m.outcome.isNone

theorem tally_total : tally shardCount members key .total = tally shardCount members key .succeeded +
    tally shardCount members key .failed + tally shardCount members key .canceled +
      unfinished shardCount members key := by
  obtain ⟨rows, hnd⟩ := members
  simp only [tally, unfinished, Table.count]
  clear hnd
  induction rows with
  | nil => rfl
  | cons e rows ih =>
    simp only [List.countP_cons, ih]
    obtain ⟨id, g, position, outcome⟩ := e
    by_cases hkey : Member.key shardCount ⟨g, position, outcome⟩ = key
    · rcases outcome with _ | o
      · simp [hkey, Member.inColumn]
        omega
      · cases o <;> simp [hkey, Member.inColumn, Column.of] <;> omega
    · simp [hkey]

variable {shardCount members key}

theorem tally_congr {members' : Table TaskId Member} (h : ∀ id m, m.key shardCount = key →
    (members.get? id = some m ↔ members'.get? id = some m)) {column : Column} :
    tally shardCount members key column = tally shardCount members' key column := by
  refine Table.count_eq_of_get? fun id m hm => h id m ?_
  simpa using (Bool.and_eq_true_iff.mp hm).1

end Tally

theorem Member.key_lt (hn : ∀ g, 0 < shardCount g) (m : Member) :
    (m.key shardCount).2 < shardCount (m.key shardCount).1 := Nat.mod_lt _ (hn m.group)

def GroupDb.pendingShards (shardCount : GroupId → Nat) (db : GroupDb) (g : GroupId) : Finset Nat :=
  (Finset.range (shardCount g)).filter fun s => 0 < (db.shards (g, s)).pending

structure GroupDb.Exact (shardCount : GroupId → Nat) (db : GroupDb) : Prop where
  shards : ∀ key column, db.shards key column = tally shardCount db.members key column
  pendingShards : ∀ g, (db.groups g).pendingShards = (db.pendingShards shardCount g).card

/-- What holds of the rows that a transaction has locked, over the committed rows. -/
structure Frame.Sound (shardCount : GroupId → Nat) (db : GroupDb) (f : Frame) (emptied : List ShardKey) : Prop where
  /-- A membership row had no outcome and has one, or is new in a shard that the transaction holds. -/
  rows : ∀ id m, f.members.get? id = some m →
    (∃ m₀, db.members.get? id = some m₀ ∧ m₀.outcome = none ∧ m₀.key shardCount = m.key shardCount ∧
      m.outcome.isSome = true) ∨ db.members.get? id = none ∧ (f.shards (m.key shardCount)).isSome = true
  /-- An outcome is listed, or counted in a shard that the transaction holds. -/
  unapplied : ∀ id m, f.members.get? id = some m → f.shards (m.key shardCount) = none → id ∈ f.listed
  listed : ∀ id ∈ f.listed, ∃ m, f.members.get? id = some m ∧ m.outcome.isSome = true
  counts : ∀ key v, f.shards key = some v → ∀ column,
    v column + f.listedIn shardCount key column = tally shardCount (db.view f).members key column
  held : ∀ g group, f.groups g = some group → group.pendingShards =
    ((db.view f).pendingShards shardCount g).card + emptied.countP fun k => k.1 = g
  /-- A shard that is held without its group was pending, and is so or has been emptied. -/
  free : ∀ g, f.groups g = none → ∀ s v, f.shards (g, s) = some v →
    0 < (db.shards (g, s)).pending ∧ (0 < v.pending ∨ (g, s) ∈ emptied)
  drained : ∀ k ∈ emptied, k.2 < shardCount k.1 ∧ ∃ v, f.shards k = some v ∧ v.pending = 0
  nodup : emptied.Nodup

namespace Frame

variable {db : GroupDb} {f : Frame} {emptied : List ShardKey} {key : ShardKey} {column : Column}

theorem listedIn_total : f.listedIn shardCount key .total = 0 := by
  refine Table.count_eq_zero_iff.mpr fun id m _ => ?_
  rcases h : m.outcome with _ | o
  · simp
  · cases o <;> simp [Column.of]

/-- What a transaction sees is exact but for the outcomes that it has listed. -/
theorem Sound.view_exact (hdb : db.Exact shardCount) (h : f.Sound shardCount db emptied) (key : ShardKey)
    (column : Column) : (db.view f).shards key column + f.listedIn shardCount key column =
      tally shardCount (db.view f).members key column := by
  cases hkey : f.shards key with
  | some v => simpa [GroupDb.view, hkey] using h.counts key v hkey column
  | none =>
    -- The rows of the shard that the transaction has written are recorded and listed.
    have hrow {id : TaskId} {m : Member} (hm : f.members.get? id = some m)
        (hk : m.key shardCount = key) : id ∈ f.listed ∧ ∃ m₀, db.members.get? id = some m₀ ∧
          m₀.outcome = none ∧ m₀.key shardCount = key := by
      refine ⟨h.unapplied id m hm (hk ▸ hkey), ?_⟩
      rcases h.rows id m hm with ⟨m₀, hm₀, hnone, hk₀, -⟩ | ⟨-, hlocked⟩
      · exact ⟨m₀, hm₀, hnone, hk₀.trans hk⟩
      · rw [hk, hkey] at hlocked
        cases hlocked
    have hother {id : TaskId} {m m₀ : Member} (hm : f.members.get? id = some m)
        (hm₀ : db.members.get? id = some m₀) (hk : m.key shardCount ≠ key) : m₀.key shardCount ≠ key := by
      rcases h.rows id m hm with ⟨m₁, hm₁, -, hk₁, -⟩ | ⟨hnone, -⟩
      · cases hm₀.symm.trans hm₁
        rwa [hk₁]
      · cases hnone.symm.trans hm₀
    have hcount := Table.count_overlay db.members f.members
      fun _ m => m.key shardCount = key && m.inColumn column
    have hview : (db.view f).shards key column = tally shardCount db.members key column := by
      simp [GroupDb.view, hkey, hdb.shards]
    change _ = (db.members.overlay f.members).count _
    rw [hview]
    unfold tally
    by_cases hcol : column = .total
    · subst hcol
      have hsame : f.members.count (fun id _ => (db.members.get? id).any fun m =>
          m.key shardCount = key && m.inColumn .total) =
          f.members.count fun _ m => m.key shardCount = key && m.inColumn .total := by
        refine Table.count_congr fun id m hm => ?_
        by_cases hk : m.key shardCount = key
        · obtain ⟨-, m₀, hm₀, -, hk₀⟩ := hrow hm hk
          simp [hm₀, hk₀, hk, Member.inColumn]
        · cases hm₀ : db.members.get? id with
          | none => simp [hk]
          | some m₀ => simp [hk, hother hm hm₀ hk]
      rw [listedIn_total]
      omega
    · have hzero : f.members.count (fun id _ => (db.members.get? id).any fun m =>
          m.key shardCount = key && m.inColumn column) = 0 := by
        refine Table.count_eq_zero_iff.mpr fun id m hm => ?_
        by_cases hk : m.key shardCount = key
        · obtain ⟨-, m₀, hm₀, hnone, -⟩ := hrow hm hk
          simp [hm₀, hnone, Member.inColumn, hcol]
        · cases hm₀ : db.members.get? id with
          | none => rfl
          | some m₀ => simp [hother hm hm₀ hk]
      have hlisted : f.members.count (fun _ m => m.key shardCount = key && m.inColumn column) =
          f.listedIn shardCount key column := by
        refine Table.count_congr fun id m hm => ?_
        by_cases hk : m.key shardCount = key
        · simp [hk, (hrow hm hk).1, Member.inColumn, hcol]
        · simp [hk]
      omega

end Frame

end Workhorse
