import PatternSweep.Pattern.Basic

/-!
# Nodes in preorder

A node of a pattern is known by its address: which part has to be taken at each step on the way down
from the root, counted from zero. Equal parts at different places have different addresses.
`Pattern.nodes` visits each node before its parts, and one part with all that belongs to it before
the next. The nodes that it visits are exactly those that have an address (`Pattern.mem_nodes`), as
many as the pattern has (`Pattern.length_nodes`), and their addresses ascend in lexicographic order
(`Pattern.pairwise_nodes`).
-/

namespace PatternSweep.Pattern

/-- The node at an address. -/
def nodeAt? (p : Pattern) : List Nat → Option Pattern
  | [] => some p
  | k :: w => p.children[k]?.bind fun c => c.nodeAt? w

/-- Nodes of a pattern as nodes below an address, where the pattern is. -/
def under (w : List Nat) (ns : List (List Nat × Pattern)) : List (List Nat × Pattern) :=
  ns.map fun n => (w ++ n.1, n.2)

mutual

/-- The nodes of a pattern in preorder, each with its address. -/
def nodes : Pattern → List (List Nat × Pattern)
  | .atom a => [([], .atom a)]
  | .seq ps => ([], .seq ps) :: partNodes 0 ps
  | .alt ps => ([], .alt ps) :: partNodes 0 ps
  | .repeated e min max => ([], .repeated e min max) :: under [0] (nodes e)
  | .ahead b c p => ([], .ahead b c p) :: (under [0] (nodes c) ++ under [1] (nodes p))

/-- The nodes of several parts, the first of which is number `k`. -/
def partNodes (k : Nat) : List Pattern → List (List Nat × Pattern)
  | [] => []
  | p :: ps => under [k] (nodes p) ++ partNodes (k + 1) ps

end

/-! ### Nodes and their parts -/

/-- Induction over the parts of a node, of whatever kind it is. -/
@[elab_as_elim]
theorem inductParts {motive : Pattern → Prop}
    (node : ∀ p, (∀ c ∈ p.children, motive c) → motive p) (p : Pattern) : motive p := by
  induction p using Pattern.induct with
  | atom a => exact node _ fun _ h => nomatch h
  | seq ps ih => exact node _ ih
  | alt ps ih => exact node _ ih
  | repeated e min max ih => exact node _ (List.forall_mem_singleton.2 ih)
  | ahead b c p ihc ihp =>
    exact node _ (List.forall_mem_cons.2 ⟨ihc, List.forall_mem_singleton.2 ihp⟩)

theorem nodes_eq (p : Pattern) : p.nodes = ([], p) :: partNodes 0 p.children := by
  cases p <;> simp [nodes, children, partNodes]

theorem nodeCount_eq (p : Pattern) : p.nodeCount = nodeCounts p.children + 1 := by
  cases p <;> simp [nodeCount, children, nodeCounts, Nat.add_comm]

section Under

variable {w v : List Nat} {ns ms : List (List Nat × Pattern)}

theorem under_append : under w (ns ++ ms) = under w ns ++ under w ms := List.map_append

theorem under_under : under w (under v ns) = under (w ++ v) ns := by simp [under]

@[simp] theorem length_under : (under w ns).length = ns.length := List.length_map _

end Under

variable {p q : Pattern} {ps : List Pattern} {k : Nat} {w : List Nat}

/-! ### How many there are -/

theorem length_partNodes (ih : ∀ p ∈ ps, p.nodes.length = p.nodeCount) :
    (partNodes k ps).length = nodeCounts ps := by
  induction ps generalizing k with
  | nil => rfl
  | cons p ps ihps =>
    obtain ⟨hp, hps⟩ := List.forall_mem_cons.1 ih
    rw [partNodes, nodeCounts, List.length_append, length_under, hp, ihps hps]

/-- There are as many nodes as the pattern has. -/
theorem length_nodes (p : Pattern) : p.nodes.length = p.nodeCount := by
  induction p using inductParts with
  | node p ih => rw [nodes_eq, nodeCount_eq, List.length_cons, length_partNodes ih]

/-! ### Which there are -/

/-- The node of a part has the number of the part before its address. -/
theorem mem_partNodes : (w, q) ∈ partNodes k ps ↔
    ∃ j p v, ps[j]? = some p ∧ w = (k + j) :: v ∧ (v, q) ∈ p.nodes := by
  induction ps generalizing k with
  | nil => simp [partNodes]
  | cons p ps ih =>
    rw [partNodes, List.mem_append, ih]
    constructor
    · rintro (h | ⟨j, p', v, hj, rfl, hv⟩)
      · obtain ⟨⟨v, q⟩, hv, heq⟩ := List.mem_map.1 h
        obtain ⟨rfl, rfl⟩ := Prod.mk.inj heq
        exact ⟨0, p, v, rfl, rfl, hv⟩
      · exact ⟨j + 1, p', v, hj, by rw [Nat.add_right_comm, Nat.add_assoc], hv⟩
    · rintro ⟨_ | j, p', v, hj, rfl, hv⟩
      · obtain rfl : p = p' := Option.some.inj hj
        exact Or.inl (List.mem_map.2 ⟨(v, q), hv, rfl⟩)
      · exact Or.inr ⟨j, p', v, hj, by rw [Nat.add_right_comm, Nat.add_assoc], hv⟩

/-- The nodes are those that have an address. -/
theorem mem_nodes : (w, q) ∈ p.nodes ↔ p.nodeAt? w = some q := by
  induction p using inductParts generalizing w with
  | node p ih =>
    rw [nodes_eq, List.mem_cons]
    cases w with
    | nil => simp [nodeAt?, mem_partNodes, eq_comm]
    | cons k w =>
      simp only [mem_partNodes, nodeAt?, Option.bind_eq_some_iff, Prod.mk.injEq, reduceCtorEq,
        false_and, false_or, Nat.zero_add, List.cons.injEq]
      constructor
      · rintro ⟨_, c, _, hc, ⟨rfl, rfl⟩, hw⟩
        exact ⟨c, hc, (ih c (List.mem_of_getElem? hc)).1 hw⟩
      · rintro ⟨c, hc, hw⟩
        exact ⟨k, c, w, hc, ⟨rfl, rfl⟩, (ih c (List.mem_of_getElem? hc)).2 hw⟩

/-! ### In which order they are -/

theorem pairwise_under {ns : List (List Nat × Pattern)} (h : ns.Pairwise (·.1 < ·.1)) :
    (under [k] ns).Pairwise (·.1 < ·.1) :=
  List.pairwise_map.2 (h.imp fun hlt => List.cons_lt_cons_self.2 hlt)

theorem pairwise_partNodes (ih : ∀ p ∈ ps, p.nodes.Pairwise (·.1 < ·.1)) :
    (partNodes k ps).Pairwise (·.1 < ·.1) := by
  induction ps generalizing k with
  | nil => exact .nil
  | cons p ps ihps =>
    obtain ⟨hp, hps⟩ := List.forall_mem_cons.1 ih
    rw [partNodes]
    refine List.pairwise_append.2 ⟨pairwise_under hp, ihps hps, ?_⟩
    -- the addresses below one part begin with a smaller number than those below a later one
    rintro n hn ⟨w, q⟩ hm
    obtain ⟨n, -, rfl⟩ := List.mem_map.1 hn
    obtain ⟨j, _, v, -, rfl, -⟩ := mem_partNodes.1 hm
    exact List.cons_lt_cons_iff.2 (Or.inl (by omega))

/-- The addresses ascend in lexicographic order. -/
theorem pairwise_nodes (p : Pattern) : p.nodes.Pairwise (·.1 < ·.1) := by
  induction p using inductParts with
  | node p ih =>
    rw [nodes_eq]
    refine List.pairwise_cons.2 ⟨?_, pairwise_partNodes ih⟩
    rintro ⟨w, q⟩ hw
    obtain ⟨j, _, v, -, rfl, -⟩ := mem_partNodes.1 hw
    exact List.nil_lt_cons _ _

/-- No node is visited twice. -/
theorem nodup_nodes (p : Pattern) : p.nodes.Nodup :=
  p.pairwise_nodes.imp fun {m n} hlt (heq : m = n) => List.lt_irrefl n.1 (heq ▸ hlt)

end PatternSweep.Pattern
