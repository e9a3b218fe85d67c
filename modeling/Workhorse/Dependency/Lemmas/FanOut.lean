import Mathlib.Data.Finset.Max
import Mathlib.Data.Set.Card
import Workhorse.Dependency.Validate

/-!
# Unresolved transitive dependents

The walks of the validation trigger compute what their names say: the cone of some prerequisites is
what lies upstream of them, and the unresolved dependents of a task are what lies downstream. In an
acyclic graph the largest count of a cone belongs to one of its sources.
-/

namespace Workhorse

open Closure Relation

namespace Edges

variable (edges : Edges)

/-- `b` waits for `a` through an edge that is not released. -/
def Blocks (a b : TaskId) : Prop := ∃ d, edges.get? (b, a) = some d ∧ d.pending = true

def downstream (id : TaskId) : Set TaskId := {x | TransGen edges.Blocks id x}

def Acyclic : Prop := ∀ id, ¬TransGen (fun a b => edges.contains (a, b) = true) id id

variable {edges} {a b id : TaskId}

theorem mem_unreleasedDependents : b ∈ edges.unreleasedDependents a ↔ edges.Blocks a b := by
  simp only [unreleasedDependents, List.mem_map, Prod.exists, Table.mem_select, Bool.and_eq_true,
    decide_eq_true_eq, Blocks]
  constructor
  · rintro ⟨x, y, d, ⟨hd, rfl, hp⟩, rfl⟩
    exact ⟨d, hd, hp⟩
  · rintro ⟨d, hd, hp⟩
    exact ⟨b, a, d, ⟨hd, rfl, hp⟩, rfl⟩

theorem mem_unreleasedPrerequisites : a ∈ edges.unreleasedPrerequisites b ↔ edges.Blocks a b := by
  simp only [unreleasedPrerequisites, List.mem_map, Prod.exists, Table.mem_select, Bool.and_eq_true,
    decide_eq_true_eq, Blocks]
  constructor
  · rintro ⟨x, y, d, ⟨hd, rfl, hp⟩, rfl⟩
    exact ⟨d, hd, hp⟩
  · rintro ⟨d, hd, hp⟩
    exact ⟨b, a, d, ⟨hd, rfl, hp⟩, rfl⟩

theorem mem_prerequisites : b ∈ edges.prerequisites a ↔ edges.contains (a, b) = true := by
  simp only [prerequisites, List.mem_map, Prod.exists, Table.mem_select, decide_eq_true_eq, Table.contains_iff]
  constructor
  · rintro ⟨x, y, d, ⟨hd, rfl⟩, rfl⟩
    exact ⟨d, hd⟩
  · rintro ⟨d, hd⟩
    exact ⟨a, b, d, ⟨hd, rfl⟩, rfl⟩

theorem mem_endpoints {d : Dependency} (h : edges.get? (a, b) = some d) :
    a ∈ edges.endpoints ∧ b ∈ edges.endpoints := by
  have hmem := Table.get?_eq_some_iff.mp h
  simp only [endpoints, List.mem_flatMap]
  exact ⟨⟨_, hmem, by simp⟩, ⟨_, hmem, by simp⟩⟩

theorem Blocks.endpoints (h : edges.Blocks a b) : a ∈ edges.endpoints ∧ b ∈ edges.endpoints := by
  obtain ⟨d, hd, -⟩ := h
  exact (mem_endpoints hd).symm

/-! ## The walks -/

theorem step_unreleasedDependents : Step edges.unreleasedDependents = edges.Blocks := by
  funext a b
  exact propext mem_unreleasedDependents

theorem step_unreleasedPrerequisites : Step edges.unreleasedPrerequisites = Function.swap edges.Blocks := by
  funext a b
  exact propext mem_unreleasedPrerequisites

theorem mem_cone {prerequisites : List TaskId} :
    id ∈ edges.cone prerequisites ↔ ∃ p ∈ prerequisites, ReflTransGen edges.Blocks id p := by
  have hall : ∀ a, ∀ b ∈ edges.unreleasedPrerequisites a, b ∈ edges.endpoints :=
    fun a b hb => (mem_unreleasedPrerequisites.mp hb).endpoints.1
  rw [cone, mem_closure_iff hall, step_unreleasedPrerequisites]
  simp only [reflTransGen_swap]

theorem mem_unresolvedDependents {sources : List TaskId} :
    id ∈ edges.unresolvedDependents sources ↔ ∃ a ∈ sources, id ∈ edges.downstream a := by
  have hall : ∀ a, ∀ b ∈ edges.unreleasedDependents a, b ∈ edges.endpoints :=
    fun a b hb => (mem_unreleasedDependents.mp hb).endpoints.2
  rw [unresolvedDependents, mem_closure_iff hall, step_unreleasedDependents]
  simp only [List.mem_dedup, List.mem_flatMap, mem_unreleasedDependents, downstream,
    Set.mem_ofPred_eq, TransGen.head'_iff]
  constructor
  · rintro ⟨b, ⟨a, ha, hab⟩, hb⟩
    exact ⟨a, ha, b, hab, hb⟩
  · rintro ⟨a, ha, b, hab, hb⟩
    exact ⟨b, ⟨a, ha, hab⟩, hb⟩

theorem nodup_unresolvedDependents {sources : List TaskId} : (edges.unresolvedDependents sources).Nodup :=
  nodup_closure _ (List.nodup_dedup _)

theorem downstream_eq : edges.downstream id = ((edges.unresolvedDependents [id]).toFinset : Set TaskId) := by
  ext x
  simp [mem_unresolvedDependents]

theorem finite_downstream : (edges.downstream id).Finite := by
  rw [downstream_eq]
  exact Finset.finite_toSet _

theorem length_unresolvedDependents : (edges.unresolvedDependents [id]).length = (edges.downstream id).ncard := by
  rw [downstream_eq, Set.ncard_coe_finset, List.toFinset_card_of_nodup nodup_unresolvedDependents]

/-! ## Sources -/

theorem Acyclic.blocks (h : edges.Acyclic) : ¬TransGen edges.Blocks id id := by
  intro hcycle
  refine h id (transGen_swap.mp (TransGen.mono ?_ id id hcycle))
  rintro a b ⟨d, hd, -⟩
  exact Table.contains_iff.mpr ⟨d, hd⟩

theorem downstream_subset (h : ReflTransGen edges.Blocks a b) : edges.downstream b ⊆ edges.downstream a :=
  fun _ hx => TransGen.trans_right h hx

/-- Something upstream of a task waits for nothing and has at least as many transitive dependents. -/
theorem exists_source (h : edges.Acyclic) (id : TaskId) : ∃ a, ReflTransGen edges.Blocks a id ∧
    edges.unreleasedPrerequisites a = [] := by
  classical
  let above := (edges.cone [id]).toFinset
  have hmem : ∀ a, a ∈ above ↔ ReflTransGen edges.Blocks a id := by
    intro a
    simp [above, mem_cone]
  -- The task upstream with the most transitive dependents is a source: anything above it has more.
  obtain ⟨a, ha, hmax⟩ := above.exists_max_image (fun a => (edges.downstream a).ncard)
    ⟨id, (hmem id).mpr .refl⟩
  refine ⟨a, (hmem a).mp ha, List.eq_nil_iff_forall_not_mem.mpr fun b hb => ?_⟩
  have hba : edges.Blocks b a := mem_unreleasedPrerequisites.mp hb
  have hle := hmax b ((hmem b).mpr (.head hba ((hmem a).mp ha)))
  have hlt : (edges.downstream a).ncard < (edges.downstream b).ncard := by
    refine Set.ncard_lt_ncard ⟨downstream_subset (.single hba), fun hsub => ?_⟩ finite_downstream
    exact h.blocks (hsub (TransGen.single hba))
  omega

end Edges

end Workhorse
