import Mathlib.Order.Interval.Finset.Nat
import Workhorse.Dependency.Lemmas.FanOut

/-!
# The limit on transitive dependents

The validation of new edges spares tasks that nothing waits for the exact count of transitive
dependents: it counts below the sources of the cone first. In an acyclic graph whose tasks were
within the limit before, that misses nothing.
-/

namespace Workhorse

open Closure Relation

namespace Edges

variable {x : Unit × Session}

def extended (edges : Edges) (inserted : List ((TaskId × TaskId) × Dependency)) : Edges :=
  inserted.foldl (fun edges e => edges.put e.1 e.2) edges

def Bounded (edges : Edges) : Prop := ∀ id, (edges.downstream id).ncard ≤ 100

def excessive (edges : Edges) : Set TaskId := {id | 100 < (edges.downstream id).ncard}

variable {edges : Edges} {inserted : List ((TaskId × TaskId) × Dependency)} {id : TaskId}

theorem get?_extended {k : TaskId × TaskId} {d : Dependency}
    (h : (edges.extended inserted).get? k = some d) : edges.get? k = some d ∨ (k, d) ∈ inserted := by
  induction inserted generalizing edges with
  | nil => exact .inl h
  | cons e inserted ih =>
    rcases ih h with hput | hmem
    · rcases Table.get?_put_cases hput with ⟨hk, rfl⟩ | ⟨-, hput⟩
      · exact .inr (by simp [hk])
      · exact .inl hput
    · exact .inr (by simp [hmem])

/-! ## Tasks over the limit -/

def newPrerequisites (inserted : List ((TaskId × TaskId) × Dependency)) : List TaskId :=
  ((inserted.filter (·.2.pending)).map (·.1.2)).dedup

theorem blocks_extended {a b : TaskId} (h : (edges.extended inserted).Blocks a b) :
    edges.Blocks a b ∨ a ∈ newPrerequisites inserted := by
  obtain ⟨d, hd, hp⟩ := h
  rcases get?_extended hd with hold | hnew
  · exact .inl ⟨d, hold, hp⟩
  · refine .inr ?_
    simp only [newPrerequisites, List.mem_dedup, List.mem_map, List.mem_filter]
    exact ⟨_, ⟨hnew, hp⟩, rfl⟩

/-- A path from a task outside the cone uses no new edge. -/
theorem downstream_of_not_mem_cone
    (h : id ∉ (edges.extended inserted).cone (newPrerequisites inserted)) :
    (edges.extended inserted).downstream id ⊆ edges.downstream id := by
  intro x hx
  have hstep : ∀ {a b}, ReflTransGen (edges.extended inserted).Blocks id a →
      (edges.extended inserted).Blocks a b → edges.Blocks a b := by
    intro a b ha hab
    rcases blocks_extended hab with hold | hnew
    · exact hold
    · exact absurd (mem_cone.mpr ⟨a, hnew, ha⟩) h
  induction hx with
  | single hb => exact .single (hstep .refl hb)
  | tail hb hbc ih => exact .tail ih (hstep hb.to_reflTransGen hbc)

theorem mem_cone_of_excessive (hbefore : edges.Bounded) (h : id ∈ (edges.extended inserted).excessive) :
    id ∈ (edges.extended inserted).cone (newPrerequisites inserted) := by
  by_contra hid
  have hle := Set.ncard_le_ncard (downstream_of_not_mem_cone hid) finite_downstream
  have hlt : 100 < ((edges.extended inserted).downstream id).ncard := h
  have := hbefore id
  omega

theorem fanOutRoot_eq_some_iff (hbefore : edges.Bounded) :
    (edges.extended inserted).fanOutRoot (newPrerequisites inserted) = some id ↔
      IsLeast (edges.extended inserted).excessive id := by
  simp only [fanOutRoot, List.min?_eq_some_iff, List.mem_filter, length_unresolvedDependents, decide_eq_true_eq]
  constructor
  · rintro ⟨⟨-, hid⟩, hmin⟩
    refine ⟨hid, fun b hb => hmin b ⟨mem_cone_of_excessive hbefore hb, hb⟩⟩
  · rintro ⟨hid, hmin⟩
    exact ⟨⟨mem_cone_of_excessive hbefore hid, hid⟩, fun b hb => hmin hb.2⟩

/-- The check of the sources does not miss a task over the limit. -/
theorem fanOutSuspected_of_excessive (hbefore : edges.Bounded)
    (hacyclic : (edges.extended inserted).Acyclic) (h : id ∈ (edges.extended inserted).excessive) :
    (edges.extended inserted).fanOutSuspected (newPrerequisites inserted) = true := by
  obtain ⟨a, ha, hsource⟩ := exists_source hacyclic id
  have hsub := downstream_subset ha
  have hcount : 100 < ((edges.extended inserted).downstream a).ncard :=
    lt_of_lt_of_le h (Set.ncard_le_ncard hsub finite_downstream)
  obtain ⟨p, hp, hpath⟩ := mem_cone.mp (mem_cone_of_excessive hbefore h)
  have hcone : a ∈ (edges.extended inserted).cone (newPrerequisites inserted) := mem_cone.mpr ⟨p, hp, ha.trans hpath⟩
  have hmem : a ∈ ((edges.extended inserted).cone (newPrerequisites inserted)).filter
      fun id => (edges.extended inserted).unreleasedPrerequisites id = [] := by
    simp [hcone, hsource]
  simp only [fanOutSuspected, Bool.and_eq_true, decide_eq_true_eq, List.any_eq_true]
  constructor
  · refine lt_of_lt_of_le (length_unresolvedDependents ▸ hcount) ?_
    refine (nodup_unresolvedDependents.subperm fun x hx => ?_).length_le
    obtain ⟨b, hb, hx⟩ := mem_unresolvedDependents.mp hx
    cases List.mem_singleton.mp hb
    exact mem_unresolvedDependents.mpr ⟨a, hmem, hx⟩
  · exact ⟨a, hmem, by rw [length_unresolvedDependents]; exact hcount⟩

/-! ## Cycles -/

theorem step_prerequisites : Step edges.prerequisites = fun a b => edges.contains (a, b) = true := by
  funext a b
  exact propext mem_prerequisites

theorem closesCycle_iff {keys : List (TaskId × TaskId)} : edges.closesCycle keys = true ↔
    ∃ k ∈ keys, ReflTransGen (fun a b => edges.contains (a, b) = true) k.2 k.1 := by
  have hall : ∀ a, ∀ b ∈ edges.prerequisites a, b ∈ edges.endpoints := by
    intro a b hb
    obtain ⟨d, hd⟩ := Table.contains_iff.mp (mem_prerequisites.mp hb)
    exact (mem_endpoints hd).2
  simp [closesCycle, mem_closure_iff hall, step_prerequisites]

theorem Acyclic.not_closesCycle (h : edges.Acyclic) {keys : List (TaskId × TaskId)}
    (hkeys : ∀ k ∈ keys, edges.contains k = true) : edges.closesCycle keys = false := by
  rw [Bool.eq_false_iff]
  intro hcycle
  obtain ⟨k, hk, hpath⟩ := closesCycle_iff.mp hcycle
  exact h k.1 (.head' (hkeys k hk) hpath)

theorem contains_extended {k : TaskId × TaskId} : (edges.extended inserted).contains k = true ↔
      edges.contains k = true ∨ k ∈ inserted.map Prod.fst := by
  induction inserted generalizing edges with
  | nil => simp [extended]
  | cons e inserted ih =>
    change (extended (edges.put e.1 e.2) inserted).contains k = true ↔ _
    rw [ih, Table.contains_put]
    simp only [Bool.or_eq_true, decide_eq_true_eq, List.map_cons, List.mem_cons]
    tauto

theorem exists_new_edge {a b : TaskId}
    (h : TransGen (fun a b => (edges.extended inserted).contains (a, b) = true) a b)
    (hold : ¬TransGen (fun a b => edges.contains (a, b) = true) a b) :
    ∃ k ∈ inserted.map Prod.fst, ReflTransGen (fun a b => (edges.extended inserted).contains (a, b) = true) a k.1 ∧
      ReflTransGen (fun a b => (edges.extended inserted).contains (a, b) = true) k.2 b := by
  induction h with
  | single hab =>
    rcases contains_extended.mp hab with hab | hk
    · exact absurd (.single hab) hold
    · exact ⟨_, hk, .refl, .refl⟩
  | @tail b c hab hbc ih =>
    by_cases hstep : TransGen (fun a b => edges.contains (a, b) = true) a b
    · rcases contains_extended.mp hbc with hbc | hk
      · exact absurd (hstep.tail hbc) hold
      · exact ⟨_, hk, hab.to_reflTransGen, .refl⟩
    · obtain ⟨k, hk, hto, hfrom⟩ := ih hstep
      exact ⟨k, hk, hto, hfrom.tail hbc⟩

/-- The search for cycles, or its absence when nothing waits for the new dependents, keeps the graph
acyclic. -/
theorem Acyclic.extended (h : edges.Acyclic)
    (hchecked : (edges.extended inserted).areSinks (inserted.map Prod.fst) = true ∨
      (edges.extended inserted).closesCycle (inserted.map Prod.fst) = false) :
    (edges.extended inserted).Acyclic := by
  intro id hcycle
  obtain ⟨k, hk, hto, hfrom⟩ := exists_new_edge hcycle (h id)
  have hpath := hfrom.trans hto
  rcases hchecked with hsinks | hcheck
  · -- The cycle enters the dependent of the new edge, which is then a prerequisite.
    simp only [areSinks, Bool.not_eq_true', Table.any_eq_false_iff] at hsinks
    have hentered : ∀ x, (edges.extended inserted).contains (x, k.1) = true → False := by
      intro x hx
      obtain ⟨d, hd⟩ := Table.contains_iff.mp hx
      have := hsinks _ _ hd
      simp_all
    rcases hpath.cases_tail with heq | ⟨x, -, hx⟩
    · obtain ⟨a, b⟩ := k
      obtain rfl : a = b := heq
      exact hentered a (contains_extended.mpr (.inr hk))
    · exact hentered x hx
  · have := closesCycle_iff.mpr ⟨k, hk, hpath⟩
    simp_all

end Edges

open Edges

/-! ## The validation -/

def unresolvedDependentsError (id : TaskId) : Fault :=
  limitError "a task accepts at most 100 unresolved transitive dependent tasks" id

theorem ensureWithin_bind_ok {m : String} {excess : List TaskId} {f : Unit → Tx Unit} {s : Session}
    (h : (ensureWithin m excess >>= f) s = .ok x) : excess = [] ∧ f () s = .ok x := by
  cases hmin : excess.min? with
  | some id =>
    simp only [ensureWithin, hmin] at h
    cases h
  | none =>
    simp only [ensureWithin, hmin] at h
    exact ⟨List.min?_eq_none_iff.mp hmin, h⟩

theorem fanOut_error {c : Bool} {root : Option TaskId} {last : Bool} {m : String} {s : Session}
    {id : TaskId} : (do
      if c then
        ensureWithin "a task accepts at most 100 unresolved transitive dependent tasks" root.toList
      ensure last m : Tx Unit) s = .error (unresolvedDependentsError id) ↔ c = true ∧ root = some id := by
  have hlast : ensure last m s ≠ .error (unresolvedDependentsError id) := by
    cases last with
    | false =>
      intro h
      cases h
    | true =>
      intro h
      cases h
  cases c with
  | false => simpa using hlast
  | true =>
    cases root with
    | none =>
      change ensure last m s = _ ↔ _
      simpa using hlast
    | some root =>
      change Except.error _ = Except.error _ ↔ _
      simp [unresolvedDependentsError, limitError]

section Limit

variable {edges : Edges} {s : Session} {inserted : List ((TaskId × TaskId) × Dependency)}

theorem validateTaskDependencies_error (hs : s.db.dependencies = edges.extended inserted)
    (hacyclic : (edges.extended inserted).Acyclic)
    (hprerequisites : ∀ id, ((edges.extended inserted).unreleasedPrerequisites id).length ≤ 100)
    (hdependents : ∀ id, ((edges.extended inserted).count fun k _ => k.2 = id) ≤ 100) (id : TaskId) :
    validateTaskDependencies inserted s = .error (unresolvedDependentsError id) ↔
      (!(edges.extended inserted).areSinks (inserted.map Prod.fst) ||
        (edges.extended inserted).fanOutSuspected (newPrerequisites inserted)) = true ∧
      (edges.extended inserted).fanOutRoot (newPrerequisites inserted) = some id := by
  have hcycle : (edges.extended inserted).closesCycle (inserted.map Prod.fst) = false :=
    hacyclic.not_closesCycle fun k hk => contains_extended.mpr (.inr hk)
  have hfirst : ((inserted.filter (·.2.pending)).map (·.1.1)).filter
      (fun id => 100 < ((edges.extended inserted).unreleasedPrerequisites id).length) = [] := by
    simp [hprerequisites]
  have hsecond : ((inserted.map Prod.fst).map Prod.snd).filter
      (fun id => 100 < (edges.extended inserted).count fun k _ => k.2 = id) = [] := by
    simp [hdependents]
  rw [validateTaskDependencies, database_bind, hs]
  simp only [hfirst, hsecond, hcycle]
  split
  · exact fanOut_error
  · exact fanOut_error

theorem validateTaskDependencies_ok (hs : s.db.dependencies = edges.extended inserted)
    (h : validateTaskDependencies inserted s = .ok x) :
    ((edges.extended inserted).areSinks (inserted.map Prod.fst) = true ∨
      (edges.extended inserted).closesCycle (inserted.map Prod.fst) = false) ∧
    ((edges.extended inserted).fanOutSuspected (newPrerequisites inserted) = true →
      (edges.extended inserted).fanOutRoot (newPrerequisites inserted) = none) := by
  rw [validateTaskDependencies, database_bind, hs] at h
  -- The rest of the checks, once the cycle search is over.
  have hrest : ∀ {sinks : Bool} {first second : List TaskId} {m₁ m₂ : String} {last : Tx Unit},
      (ensureWithin m₁ first >>= fun _ => ensureWithin m₂ second >>= fun _ =>
        if sinks || (edges.extended inserted).fanOutSuspected (newPrerequisites inserted) then
          ensureWithin "a task accepts at most 100 unresolved transitive dependent tasks"
            ((edges.extended inserted).fanOutRoot (newPrerequisites inserted)).toList >>= fun _ => last
        else last) s = .ok x →
      (edges.extended inserted).fanOutSuspected (newPrerequisites inserted) = true →
        (edges.extended inserted).fanOutRoot (newPrerequisites inserted) = none := by
    intro sinks first second m₁ m₂ last h hsuspected
    obtain ⟨-, h⟩ := ensureWithin_bind_ok h
    obtain ⟨-, h⟩ := ensureWithin_bind_ok h
    rw [hsuspected, Bool.or_true, if_pos rfl] at h
    simpa using (ensureWithin_bind_ok h).1
  simp only at h
  split at h
  · obtain ⟨hcycle, h⟩ := ensure_bind_ok.mp h
    exact ⟨.inr (by simpa using hcycle), hrest h⟩
  · rename_i hsinks
    exact ⟨.inl (by simpa using hsinks), hrest h⟩

theorem Edges.Bounded.extended (hs : s.db.dependencies = edges.extended inserted)
    (hacyclic : edges.Acyclic) (hbefore : edges.Bounded) (h : validateTaskDependencies inserted s = .ok x) :
    (edges.extended inserted).Acyclic ∧ (edges.extended inserted).Bounded := by
  obtain ⟨hchecked, hroot⟩ := validateTaskDependencies_ok hs h
  have hafter := hacyclic.extended hchecked
  refine ⟨hafter, fun id => ?_⟩
  by_contra hid
  have hid : id ∈ (edges.extended inserted).excessive := not_le.mp hid
  -- The smallest task over the limit would have been found.
  obtain ⟨root, hleast⟩ : ∃ root, IsLeast (edges.extended inserted).excessive root := by
    classical
    have hex : ∃ id, id ∈ (edges.extended inserted).excessive := ⟨id, hid⟩
    exact ⟨Nat.find hex, Nat.find_spec hex, fun b hb => Nat.find_min' hex hb⟩
  have hsome := (fanOutRoot_eq_some_iff hbefore).mpr hleast
  rw [hroot (fanOutSuspected_of_excessive hbefore hafter hid)] at hsome
  cases hsome

end Limit

inductive Edges.Built : Edges → Prop
  | empty : Built Table.empty
  | insert {s s' : Session} {inserted : List ((TaskId × TaskId) × Dependency)}
      (h : Built s.db.dependencies) (hrun : insertEdges inserted s = .ok ((), s')) :
      Built s'.db.dependencies
  | release {edges : Edges} {f : TaskId × TaskId → Dependency → Dependency} (h : Built edges)
      (hf : ∀ k d, (f k d).pending = true → d.pending = true) : Built (edges.mapRows f)

theorem Edges.Built.bounded {edges : Edges} (h : edges.Built) : edges.Acyclic ∧ edges.Bounded := by
  induction h with
  | empty =>
    constructor
    · intro id hcycle
      rcases hcycle with hstep | ⟨-, hstep⟩
      · cases hstep
      · cases hstep
    · intro id
      rw [← length_unresolvedDependents]
      exact Nat.zero_le 100
  | @insert s s' inserted _ hrun ih =>
    obtain rfl := insertEdges_cases _ _ hrun
    obtain ⟨-, hrun⟩ := ensure_bind_ok.mp hrun
    rw [database_bind] at hrun
    split at hrun
    · cases hrun
    · obtain ⟨_, _, hwrite, hrun⟩ := Transaction.bind_eq_ok.mp hrun
      cases hwrite
      exact Bounded.extended rfl ih.1 ih.2 hrun
  | @release edges f _ hf ih =>
    have hblocks : ∀ a b, Edges.Blocks (edges.mapRows f) a b → edges.Blocks a b := by
      rintro a b ⟨d, hd, hp⟩
      rw [Table.get?_mapRows, Option.map_eq_some_iff] at hd
      obtain ⟨d₀, hd₀, rfl⟩ := hd
      exact ⟨d₀, hd₀, hf _ _ hp⟩
    constructor
    · intro id hcycle
      refine ih.1 id (TransGen.mono (fun a b hab => ?_) id id hcycle)
      simpa [Table.contains] using hab
    · intro id
      refine le_trans (Set.ncard_le_ncard (fun x hx => ?_) finite_downstream) (ih.2 id)
      exact TransGen.mono hblocks id x hx

/-- The validation rejects new edges for their transitive dependents exactly when some task would have
more than 100 of them, and it names the smallest such task; so no table that validated inserts and
releases build has such a task. -/
theorem fanOut_limit : (∀ (edges : Edges) (inserted : List ((TaskId × TaskId) × Dependency)) (s : Session),
      edges.Bounded → s.db.dependencies = edges.extended inserted → (edges.extended inserted).Acyclic →
      (∀ id, ((edges.extended inserted).unreleasedPrerequisites id).length ≤ 100) →
      (∀ id, ((edges.extended inserted).count fun k _ => k.2 = id) ≤ 100) →
      ∀ id, validateTaskDependencies inserted s = .error (unresolvedDependentsError id) ↔
        IsLeast {t | 100 < ((edges.extended inserted).downstream t).ncard} id) ∧
    ∀ edges : Edges, edges.Built → ∀ id, (edges.downstream id).ncard ≤ 100 := by
  constructor
  · intro edges inserted s hbefore hs hacyclic hprerequisites hdependents id
    rw [validateTaskDependencies_error hs hacyclic hprerequisites hdependents, fanOutRoot_eq_some_iff hbefore]
    constructor
    · exact fun h => h.2
    · intro hleast
      exact ⟨by simp [fanOutSuspected_of_excessive hbefore hacyclic hleast.1], hleast⟩
  · exact fun edges h => h.bounded.2

open Edges

def pendingEdge : Dependency := ⟨.release, .fail, .cancel, none⟩

/-- Each of `n` tasks waits for the one before it, from task 1 on. -/
def chain : Nat → Edges
  | 0 => .empty
  | n + 1 => (chain n).put (n + 2, n + 1) pendingEdge

theorem get?_chain {n a b : Nat} {d : Dependency} :
    (chain n).get? (a, b) = some d ↔ (a = b + 1 ∧ 1 ≤ b ∧ b ≤ n) ∧ d = pendingEdge := by
  induction n with
  | zero =>
    constructor
    · intro h
      cases h
    · omega
  | succ n ih =>
    simp only [chain, Table.get?_put]
    split
    case isTrue h =>
      obtain ⟨rfl, rfl⟩ := Prod.mk.inj h
      simp [eq_comm]
    case isFalse h =>
      have hne : ¬(a = n + 2 ∧ b = n + 1) := fun h' => h (by rw [h'.1, h'.2])
      rw [ih]
      refine and_congr_left fun _ => ?_
      omega

theorem mem_downstream_chain {n a x : Nat} : x ∈ (chain n).downstream a ↔ 1 ≤ a ∧ a < x ∧ x ≤ n + 1 := by
  have hblocks {a b : Nat} : (chain n).Blocks a b ↔ b = a + 1 ∧ 1 ≤ a ∧ a ≤ n := by
    simp [Blocks, get?_chain, pendingEdge, Dependency.pending]
  constructor
  · intro h
    induction h with
    | single h => have := hblocks.mp h; omega
    | tail _ h ih => have := hblocks.mp h; omega
  · rintro ⟨ha, hlt, hle⟩
    induction x, hlt using Nat.le_induction with
    | base => exact .single (hblocks.mpr (by omega))
    | succ x hx ih => exact .tail (ih (by omega)) (hblocks.mpr (by omega))

theorem ncard_downstream_chain {n a : Nat} : ((chain n).downstream a).ncard = if a = 0 then 0 else n + 1 - a := by
  split
  · have hempty : (chain n).downstream a = ∅ := by
      ext x
      simp [mem_downstream_chain]
      omega
    rw [hempty, Set.ncard_empty]
  · have hset : (chain n).downstream a = Finset.Ioc a (n + 1) := by
      ext x
      simp [mem_downstream_chain]
      omega
    rw [hset, Set.ncard_coe_finset, Nat.card_Ioc]

theorem acyclic_chain {n : Nat} : (chain n).Acyclic := by
  have hlt {a b : Nat} (h : TransGen (fun a b => (chain n).contains (a, b) = true) a b) : b < a := by
    induction h with
    | single h => simp [Table.contains_iff, get?_chain] at h; omega
    | tail _ h ih => simp [Table.contains_iff, get?_chain] at h; omega
  exact fun id h => (hlt h).false

/-- Not all of a chain's rows meet a condition that one of them fails. -/
theorem countP_chain {p : (TaskId × TaskId) × Dependency → Bool} (b : Nat) (hb : 1 ≤ b ∧ b ≤ 101)
    (hp : p ((b + 1, b), pendingEdge) = false) : (chain 101).rows.countP p ≤ 100 := by
  have hmem := Table.get?_eq_some_iff.mp ((get?_chain (n := 101)).mpr ⟨⟨rfl, hb⟩, rfl⟩)
  have hlength : (chain 101).rows.length = 101 := by decide +kernel
  have hlt := (List.length_filter_lt_length_iff_exists (p := p)).mpr ⟨_, hmem, by simp [hp]⟩
  rw [List.countP_eq_length_filter]
  omega

def lastEdge (n : Nat) : List ((TaskId × TaskId) × Dependency) := [((n + 2, n + 1), pendingEdge)]

theorem extended_chain {n : Nat} : (chain n).extended (lastEdge n) = chain (n + 1) := rfl

/-- The last edge of a chain of 101 gives its first task the 101st dependent. -/
theorem fanOut_limit_chain :
    validateTaskDependencies (lastEdge 100)
        ⟨{ Db.empty with dependencies := (chain 100).extended (lastEdge 100) }, steadyHost, 0⟩ =
      .error (unresolvedDependentsError 1) ∧ ∀ id, ((chain 1).downstream id).ncard ≤ 100 := by
  constructor
  · have hlimit := fanOut_limit.1 (chain 100) (lastEdge 100)
      ⟨{ Db.empty with dependencies := (chain 100).extended (lastEdge 100) }, steadyHost, 0⟩
    rw [extended_chain] at hlimit ⊢
    refine (hlimit (fun id => ?_) (by dsimp only) acyclic_chain (fun id => ?_) (fun id => ?_) 1).mpr ?_
    · rw [ncard_downstream_chain]
      split <;> omega
    · rw [Edges.unreleasedPrerequisites, List.length_map, Table.select, ← List.countP_eq_length_filter]
      by_cases hid : id = 2
      · exact countP_chain 2 (by decide) (by simp [hid])
      · exact countP_chain 1 (by decide) (by simp [Ne.symm hid])
    · by_cases hid : id = 2
      · exact countP_chain 1 (by decide) (by simp [hid])
      · exact countP_chain 2 (by decide) (by simp [Ne.symm hid])
    · simp only [ncard_downstream_chain]
      constructor
      · simp
      · intro t ht
        by_contra h
        simp [Nat.lt_one_iff.mp (not_le.mp h)] at ht
  · exact fanOut_limit.2 _ (@Edges.Built.insert ⟨Db.empty, steadyHost, 0⟩
      ⟨{ Db.empty with dependencies := chain 1 }, steadyHost, 0⟩ (lastEdge 0) .empty rfl)

end Workhorse
