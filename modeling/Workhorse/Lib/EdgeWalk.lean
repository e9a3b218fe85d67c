import Mathlib.Data.List.Nodup
import Mathlib.Data.List.Perm.Subperm

/-!
# Breadth-first walk over edges

A walk from a node of an undirected graph whose edges have distinct keys. It collects the keys of the
edges that it meets, up to a limit. What it collects lies in the component of its start, and it is the
whole component when that has fewer edges than the limit.
-/

namespace EdgeWalk

variable {α ε κ : Type} [DecidableEq α]

/-- The edges, in the order in which a walk meets the edges of one node. -/
structure Graph (α ε κ : Type) where
  edges : List ε
  source : ε → α
  target : ε → α
  key : ε → κ

structure State (α κ : Type) where
  frontier : List α
  nodes : List α
  seen : List κ

namespace Graph

def incident (g : Graph α ε κ) (v : α) (e : ε) : Bool := g.source e = v || g.target e = v

def neighbor (g : Graph α ε κ) (v : α) (e : ε) : α := if g.source e = v then g.target e else g.source e

def visit (g : Graph α ε κ) (v : α) (st : State α κ) (e : ε) : State α κ :=
  if st.nodes.contains (g.neighbor v e) then { st with seen := st.seen ++ [g.key e] }
  else ⟨st.frontier ++ [g.neighbor v e], st.nodes ++ [g.neighbor v e], st.seen ++ [g.key e]⟩

def start (a : α) : State α κ := ⟨[a], [a], []⟩

/-! ## The component of the start -/

def Adjacent (g : Graph α ε κ) (v w : α) : Prop := ∃ e ∈ g.edges, g.incident v e = true ∧ g.neighbor v e = w

def Connected (g : Graph α ε κ) (a v : α) : Prop := Relation.ReflTransGen g.Adjacent a v

variable {g : Graph α ε κ} {st : State α κ} {a v w : α} {e : ε} {limit : Nat} {rest : List α}

theorem incident_iff : g.incident v e = true ↔ g.source e = v ∨ g.target e = v := by
  simp [incident]

theorem ends_of_incident (h : g.incident v e = true) :
    (g.source e = v ∧ g.target e = g.neighbor v e) ∨ (g.target e = v ∧ g.source e = g.neighbor v e) := by
  unfold neighbor
  by_cases hs : g.source e = v
  · exact .inl ⟨hs, by simp [hs]⟩
  · exact .inr ⟨(incident_iff.mp h).resolve_left hs, by simp [hs]⟩

structure Sound (g : Graph α ε κ) (a : α) (st : State α κ) : Prop where
  start_mem : a ∈ st.nodes
  frontier : ∀ v ∈ st.frontier, v ∈ st.nodes
  connected : ∀ v ∈ st.nodes, g.Connected a v
  nodup : st.seen.Nodup
  seen : ∀ k ∈ st.seen, ∃ e ∈ g.edges, g.key e = k ∧ g.source e ∈ st.nodes ∧ g.target e ∈ st.nodes

theorem sound_start : g.Sound a (start a) where
  start_mem := List.mem_singleton_self a
  frontier := fun _ h => h
  connected := fun v h => by rw [List.mem_singleton.mp h]; exact .refl
  nodup := List.nodup_nil
  seen := fun _ h => absurd h List.not_mem_nil

theorem visit_seen : (g.visit v st e).seen = st.seen ++ [g.key e] := by
  unfold visit
  split <;> rfl

theorem mem_nodes_visit : w ∈ (g.visit v st e).nodes ↔ w ∈ st.nodes ∨ w = g.neighbor v e := by
  unfold visit
  split
  · rename_i h
    have hmem : g.neighbor v e ∈ st.nodes := by simpa using h
    exact ⟨.inl, fun h => h.elim id fun h => h ▸ hmem⟩
  · simp

theorem mem_frontier_visit (h : w ∈ (g.visit v st e).frontier) : w ∈ st.frontier ∨ w = g.neighbor v e := by
  unfold visit at h
  split at h
  · exact .inl h
  · simpa using h

theorem frontier_subset_visit (h : w ∈ st.frontier) : w ∈ (g.visit v st e).frontier := by
  unfold visit
  split
  · exact h
  · exact List.mem_append_left _ h

theorem mem_frontier_of_new (h : w ∈ (g.visit v st e).nodes) (hw : w ∉ st.nodes) : w ∈ (g.visit v st e).frontier := by
  have heq := (mem_nodes_visit.mp h).resolve_left hw
  unfold visit
  split
  · rename_i hc
    exact absurd (heq ▸ (by simpa using hc)) hw
  · simp [heq]

theorem length_frontier_visit (g : Graph α ε κ) (v : α) (st : State α κ) (e : ε) :
    (g.visit v st e).frontier.length ≤ st.frontier.length + 1 := by
  unfold visit
  split <;> simp

theorem Sound.visit (h : g.Sound a st) (hv : v ∈ st.nodes) (he : e ∈ g.edges)
    (hinc : g.incident v e = true) (hnew : g.key e ∉ st.seen) : g.Sound a (g.visit v st e) where
  start_mem := mem_nodes_visit.mpr (.inl h.start_mem)
  frontier w hw := by
    rcases mem_frontier_visit hw with hw | hw
    · exact mem_nodes_visit.mpr (.inl (h.frontier w hw))
    · exact mem_nodes_visit.mpr (.inr hw)
  connected w hw := by
    rcases mem_nodes_visit.mp hw with hw | rfl
    · exact h.connected w hw
    · exact (h.connected v hv).tail ⟨e, he, hinc, rfl⟩
  nodup := by
    rw [visit_seen]
    exact List.nodup_append.mpr ⟨h.nodup, List.nodup_singleton _, fun k hk k' hk' heq =>
      hnew (by rw [← List.mem_singleton.mp hk', ← heq]; exact hk)⟩
  seen k hk := by
    rw [visit_seen] at hk
    rcases List.mem_append.mp hk with hk | hk
    · obtain ⟨f, hf, hkey, hs, ht⟩ := h.seen k hk
      exact ⟨f, hf, hkey, mem_nodes_visit.mpr (.inl hs), mem_nodes_visit.mpr (.inl ht)⟩
    · refine ⟨e, he, (List.mem_singleton.mp hk).symm, ?_⟩
      simp only [mem_nodes_visit]
      rcases ends_of_incident hinc with ⟨hs, ht⟩ | ⟨ht, hs⟩
      · exact ⟨.inl (hs ▸ hv), .inr ht⟩
      · exact ⟨.inr hs, .inl (ht ▸ hv)⟩

theorem length_seen_le (h : g.Sound a st) : st.seen.length ≤ g.edges.length := by
  rw [← List.length_map (f := g.key)]
  refine (h.nodup.subperm fun k hk => ?_).length_le
  obtain ⟨e, he, rfl, -⟩ := h.seen k hk
  exact List.mem_map_of_mem he

/-- Unless the limit is reached, every node off the frontier has all of its edges met. -/
def Processed (g : Graph α ε κ) (limit : Nat) (st : State α κ) : Prop := limit ≤ st.seen.length ∨
    ∀ v ∈ st.nodes, v ∈ st.frontier ∨ ∀ e ∈ g.edges, g.incident v e = true → g.key e ∈ st.seen

def remaining (g : Graph α ε κ) (st : State α κ) : Nat := st.frontier.length + (g.edges.length - st.seen.length)

/-! ## The edges of one node -/

variable {es : List ε}

theorem Sound.visits (h : g.Sound a st) (hv : v ∈ st.nodes) (hes : ∀ e ∈ es, e ∈ g.edges ∧
    g.incident v e = true ∧ g.key e ∉ st.seen) (hkeys : (es.map g.key).Nodup) :
    g.Sound a (es.foldl (g.visit v) st) ∧ (es.foldl (g.visit v) st).seen = st.seen ++ es.map g.key ∧
      (es.foldl (g.visit v) st).frontier.length ≤ st.frontier.length + es.length ∧
      (∀ w ∈ st.frontier, w ∈ (es.foldl (g.visit v) st).frontier) ∧
      ∀ w ∈ (es.foldl (g.visit v) st).nodes, w ∈ st.nodes ∨ w ∈ (es.foldl (g.visit v) st).frontier := by
  induction es generalizing st with
  | nil => exact ⟨h, by simp, by simp, fun _ h => h, fun _ h => .inl h⟩
  | cons e es ih =>
    obtain ⟨he, hinc, hnew⟩ := hes e List.mem_cons_self
    have hkeys' := List.nodup_cons.mp hkeys
    obtain ⟨hsound, hseen, hlength, hsub, hnodes⟩ := ih (h.visit hv he hinc hnew)
      (mem_nodes_visit.mpr (.inl hv)) (fun f hf => by
        obtain ⟨hmem, hincident, hfresh⟩ := hes f (List.mem_cons_of_mem e hf)
        refine ⟨hmem, hincident, fun hk => ?_⟩
        rw [visit_seen] at hk
        rcases List.mem_append.mp hk with hk | hk
        · exact hfresh hk
        · exact hkeys'.1 (List.mem_map.mpr ⟨f, hf, List.mem_singleton.mp hk⟩)) hkeys'.2
    refine ⟨hsound, ?_, ?_, fun w hw => hsub w (frontier_subset_visit hw), fun w hw => ?_⟩
    · rw [List.foldl_cons, hseen, visit_seen, List.map_cons, List.append_assoc, List.singleton_append]
    · have := length_frontier_visit g v st e
      rw [List.foldl_cons, List.length_cons]
      omega
    · rcases hnodes w hw with hw | hw
      · by_cases hold : w ∈ st.nodes
        · exact .inl hold
        · exact .inr (hsub w (mem_frontier_of_new hw hold))
      · exact .inr hw

variable [DecidableEq κ]

def fresh (g : Graph α ε κ) (seen : List κ) (v : α) (room : Nat) : List ε :=
  (g.edges.filter fun e => g.incident v e && !seen.contains (g.key e)).take room

def expand (g : Graph α ε κ) (limit : Nat) (st : State α κ) (v : α) (rest : List α) : State α κ :=
  (g.fresh st.seen v (limit - st.seen.length)).foldl (g.visit v) { st with frontier := rest }

def walk (g : Graph α ε κ) (limit : Nat) : Nat → State α κ → State α κ
  | 0, st => st
  | fuel + 1, st =>
    match st.frontier with
    | [] => st
    | v :: rest => if st.seen.length < limit then g.walk limit fuel (g.expand limit st v rest) else st

theorem mem_fresh {seen : List κ} {room : Nat} (h : e ∈ g.fresh seen v room) :
    e ∈ g.edges ∧ g.incident v e = true ∧ g.key e ∉ seen := by
  have := List.mem_filter.mp (List.mem_of_mem_take h)
  simpa using this

theorem nodup_fresh (hkeys : (g.edges.map g.key).Nodup) (seen : List κ) (room : Nat) :
    ((g.fresh seen v room).map g.key).Nodup :=
  hkeys.sublist (((List.take_sublist _ _).trans List.filter_sublist).map g.key)

/-! ## Whole walks -/

theorem expand_sound (hkeys : (g.edges.map g.key).Nodup) (h : g.Sound a st)
    (hp : g.Processed limit st) (hfrontier : st.frontier = v :: rest) (hroom : st.seen.length < limit) :
    g.Sound a (g.expand limit st v rest) ∧ g.Processed limit (g.expand limit st v rest) ∧
      (g.expand limit st v rest).seen.length ≤ limit ∧ g.remaining (g.expand limit st v rest) < g.remaining st := by
  have hv : v ∈ st.nodes := h.frontier v (by simp [hfrontier])
  have hrest : g.Sound a { st with frontier := rest } :=
    ⟨h.start_mem, fun w hw => h.frontier w (by simp [hfrontier, hw]), h.connected, h.nodup, h.seen⟩
  obtain ⟨hsound, hseen, hlength, hsub, hnodes⟩ := hrest.visits hv (fun e he => mem_fresh he)
    (nodup_fresh hkeys st.seen (limit - st.seen.length))
  have htake : (g.fresh st.seen v (limit - st.seen.length)).length ≤ limit - st.seen.length := List.length_take_le _ _
  have hcount : (g.expand limit st v rest).seen.length =
      st.seen.length + (g.fresh st.seen v (limit - st.seen.length)).length := by
    unfold expand
    rw [hseen, List.length_append, List.length_map]
  refine ⟨hsound, ?_, by omega, ?_⟩
  · by_cases hfull : limit ≤ (g.expand limit st v rest).seen.length
    · exact .inl hfull
    · -- Nothing was cut off, so all edges of `v` are met.
      have hall : g.fresh st.seen v (limit - st.seen.length) =
          g.edges.filter fun e => g.incident v e && !st.seen.contains (g.key e) := by
        refine List.take_of_length_le ?_
        by_contra hlong
        have : (g.fresh st.seen v (limit - st.seen.length)).length = limit - st.seen.length :=
          List.length_take_of_le (by omega)
        omega
      have hmet : ∀ e ∈ g.edges, g.incident v e = true → g.key e ∈ (g.expand limit st v rest).seen := by
        intro e he hinc
        unfold expand
        rw [hseen]
        by_cases hold : g.key e ∈ st.seen
        · exact List.mem_append_left _ hold
        · refine List.mem_append_right _ (List.mem_map_of_mem ?_)
          rw [hall]
          simp [he, hinc, hold]
      refine .inr fun w hw => ?_
      rcases hnodes w hw with hw | hw
      · rcases (hp.resolve_left (by omega)) w hw with hfront | hdone
        · rcases List.mem_cons.mp (hfrontier ▸ hfront) with rfl | hfront
          · exact .inr hmet
          · exact .inl (hsub w hfront)
        · refine .inr fun e he hinc => ?_
          unfold expand
          rw [hseen]
          exact List.mem_append_left _ (hdone e he hinc)
      · exact .inl hw
  · have hle := length_seen_le hsound
    unfold remaining
    rw [hfrontier, List.length_cons]
    change _ + (g.edges.length - (g.expand limit st v rest).seen.length) < _
    change (g.expand limit st v rest).seen.length ≤ _ at hle
    have hlength' : (g.expand limit st v rest).frontier.length ≤
      rest.length + (g.fresh st.seen v (limit - st.seen.length)).length := hlength
    omega

/-- With enough fuel a walk stops by itself, and what holds of each of its states holds of its last. -/
theorem walk_sound (hkeys : (g.edges.map g.key).Nodup) {fuel : Nat} (h : g.Sound a st)
    (hp : g.Processed limit st) (hlimit : st.seen.length ≤ limit) (hfuel : g.remaining st ≤ fuel) :
    g.Sound a (g.walk limit fuel st) ∧ g.Processed limit (g.walk limit fuel st) ∧
      (g.walk limit fuel st).seen.length ≤ limit ∧
      ((g.walk limit fuel st).frontier = [] ∨ limit ≤ (g.walk limit fuel st).seen.length) := by
  induction fuel generalizing st with
  | zero =>
    have hempty : st.frontier = [] := by
      unfold remaining at hfuel
      exact List.length_eq_zero_iff.mp (by omega)
    exact ⟨h, hp, hlimit, .inl hempty⟩
  | succ fuel ih =>
    unfold walk
    split
    · rename_i hempty
      exact ⟨h, hp, hlimit, .inl hempty⟩
    · rename_i v rest hfrontier
      split
      · rename_i hroom
        obtain ⟨hs, hp', hl, hless⟩ := expand_sound hkeys h hp hfrontier hroom
        exact ih hs hp' hl (by omega)
      · rename_i hfull
        exact ⟨h, hp, hlimit, .inr (by omega)⟩

/-! ## What a walk collects -/

def Component (g : Graph α ε κ) (a : α) (e : ε) : Prop := e ∈ g.edges ∧ g.Connected a (g.source e)

omit [DecidableEq κ] in
theorem Sound.component (h : g.Sound a st) {k : κ} (hk : k ∈ st.seen) : ∃ e, g.Component a e ∧ g.key e = k := by
  obtain ⟨e, he, hkey, hs, -⟩ := h.seen k hk
  exact ⟨e, ⟨he, h.connected _ hs⟩, hkey⟩

omit [DecidableEq κ] in
theorem Sound.seen_of_component (hkeys : (g.edges.map g.key).Nodup) (h : g.Sound a st)
    (hp : g.Processed limit st) (hempty : st.frontier = []) (hroom : st.seen.length < limit)
    (he : g.Component a e) : g.key e ∈ st.seen := by
  have hdone : ∀ v ∈ st.nodes, ∀ e ∈ g.edges, g.incident v e = true → g.key e ∈ st.seen := by
    intro v hv
    rcases (hp.resolve_left (by omega)) v hv with hfront | hdone
    · exact absurd (hempty ▸ hfront) List.not_mem_nil
    · exact hdone
  have hnodes {v : α} (hv : g.Connected a v) : v ∈ st.nodes := by
    induction hv with
    | refl => exact h.start_mem
    | tail _ hstep ih =>
      obtain ⟨f, hf, hinc, rfl⟩ := hstep
      obtain ⟨f', hf', hkey, hs, ht⟩ := h.seen _ (hdone _ ih f hf hinc)
      obtain rfl : f' = f := List.inj_on_of_nodup_map hkeys hf' hf hkey
      rcases ends_of_incident hinc with ⟨-, hw⟩ | ⟨-, hw⟩
      · exact hw ▸ ht
      · exact hw ▸ hs
  exact hdone _ (hnodes he.2) e he.1 (incident_iff.mpr (.inl rfl))

def collected (g : Graph α ε κ) (limit : Nat) (a : α) : List κ := (g.walk limit (g.edges.length + 1) (start a)).seen

theorem walk_start (hkeys : (g.edges.map g.key).Nodup) (limit : Nat) (a : α) :
    g.Sound a (g.walk limit (g.edges.length + 1) (start a)) ∧
      g.Processed limit (g.walk limit (g.edges.length + 1) (start a)) ∧ (g.collected limit a).length ≤ limit ∧
      ((g.walk limit (g.edges.length + 1) (start a)).frontier = [] ∨ limit ≤ (g.collected limit a).length) := by
  refine walk_sound hkeys sound_start (.inr fun v hv => .inl hv) (Nat.zero_le _) ?_
  simp [remaining, start, Nat.add_comm]

theorem nodup_collected (hkeys : (g.edges.map g.key).Nodup) : (g.collected limit a).Nodup :=
  (walk_start hkeys limit a).1.nodup

theorem component_of_mem_collected (hkeys : (g.edges.map g.key).Nodup) {k : κ}
    (hk : k ∈ g.collected limit a) : ∃ e, g.Component a e ∧ g.key e = k :=
  (walk_start hkeys limit a).1.component hk

/-- A component that has fewer edges than the limit is collected as a whole. -/
theorem mem_collected (hkeys : (g.edges.map g.key).Nodup) {es : List ε}
    (hes : ∀ e, g.Component a e → e ∈ es) (hlimit : es.length < limit) (he : g.Component a e) :
    g.key e ∈ g.collected limit a := by
  obtain ⟨hsound, hp, -, hstop⟩ := walk_start hkeys limit a
  have hfew : (g.collected limit a).length ≤ es.length := by
    have hlength : (es.map g.key).length = es.length := List.length_map _
    rw [← hlength]
    refine (hsound.nodup.subperm fun k hk => ?_).length_le
    obtain ⟨e, he, rfl⟩ := hsound.component hk
    exact List.mem_map_of_mem (hes e he)
  have hroom : (g.walk limit (g.edges.length + 1) (start a)).seen.length < limit := Nat.lt_of_le_of_lt hfew hlimit
  exact hsound.seen_of_component hkeys hp (hstop.resolve_right (Nat.not_le.mpr hroom)) hroom he

end Graph

end EdgeWalk
