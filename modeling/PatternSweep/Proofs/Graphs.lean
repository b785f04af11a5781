import Mathlib.Data.List.Nodup
import PatternSweep.Proofs.GraphTexts
import PatternSweep.Proofs.Preorder

/-!
# Drawings are their trees

The lines of a node and of its parts are made for one number after the other, so the numbers that a
pattern takes are an interval, and those of its parts are the rest of it after its root, cut into
intervals (`Pattern.graph_snd`). Hence the lines of the nodes are the nodes in preorder
(`Pattern.nodeLines_graph`), and all numbers but that of the root are reached by one edge
(`Pattern.perm_targets_graph`). Which edges leave a node is said for a pattern that is drawn as a
part of a greater one, whose nodes in preorder are `ns`: if those of the pattern stand there from
its number on, then the edges that leave one of them lead to its parts, in their order
(`Pattern.targetNodes_graph`).
-/

namespace PatternSweep

/-! ### Lists that stand in a list from a position on -/

theorem prefix_drop_append {α : Type} {xs ys zs : List α} {i : Nat} (h : xs ++ ys <+: zs.drop i) :
    xs <+: zs.drop i ∧ ys <+: zs.drop (i + xs.length) := by
  obtain ⟨t, ht⟩ := h
  rw [← List.drop_drop, ← ht, List.append_assoc, List.drop_left]
  exact ⟨⟨ys ++ t, rfl⟩, ⟨t, rfl⟩⟩

theorem prefix_drop_cons {α : Type} {x : α} {xs zs : List α} {i : Nat} (h : x :: xs <+: zs.drop i) :
    zs[i]? = some x ∧ xs <+: zs.drop (i + 1) := by
  have happend : [x] ++ xs <+: zs.drop i := h
  obtain ⟨⟨t, ht⟩, hxs⟩ := prefix_drop_append happend
  exact ⟨by rw [← List.head?_drop, ← ht]; rfl, hxs⟩

namespace GraphLine

/-- The numbers and labels in the lines of nodes. -/
def nodeLines (ls : List GraphLine) : List (Nat × String) :=
  ls.filterMap fun
    | node id label => some (id, label)
    | edge _ _ => none

/-- The sources and targets in the lines of edges. -/
def edgeLines (ls : List GraphLine) : List (Nat × Nat) :=
  ls.filterMap fun
    | node _ _ => none
    | edge source target => some (source, target)

/-- The targets of the edges from a node, in the order of their lines. -/
def targetsFrom (es : List (Nat × Nat)) (a : Nat) : List Nat :=
  (es.filter (·.1 = a)).map Prod.snd

end GraphLine

open GraphLine

namespace Pattern

/-- The parts of a node at an address, each with its own. -/
def addressed (w : List Nat) (k : Nat) (ps : List Pattern) : List (Option (List Nat × Pattern)) :=
  (ps.zipIdx k).map fun x => some (w ++ [x.2], x.1)

/-- The lines draw the pattern as a tree. Its nodes have the numbers of their places in preorder. -/
structure Draws (p : Pattern) (ls : List GraphLine) : Prop where
  /-- The lines of nodes are numbered from zero on. -/
  numbers : (nodeLines ls).map Prod.fst = List.range p.nodeCount
  /-- Each has the label of its node. -/
  labels : (nodeLines ls).map Prod.snd = p.nodes.map (·.2.label)
  /-- There is one edge less than there are nodes. -/
  length_edges : (edgeLines ls).length = p.nodeCount - 1
  /-- The edges lead from nodes to their direct parts. -/
  mem_edges : ∀ a b, (a, b) ∈ edgeLines ls ↔ ∃ w q k c, p.nodes[a]? = some (w, q) ∧
    q.children[k]? = some c ∧ p.nodes[b]? = some (w ++ [k], c)
  /-- One edge leads to each node but the root. -/
  one_edge : ∀ b, 0 < b → b < p.nodeCount → ((edgeLines ls).map Prod.snd).count b = 1
  /-- The edges from a node lead to its direct parts in the order in which they are matched. -/
  targets : ∀ a w q, p.nodes[a]? = some (w, q) →
    (targetsFrom (edgeLines ls) a).map (p.nodes[·]?) = addressed w 0 q.children

variable {p : Pattern} {ps : List Pattern} {parent id k : Nat} {w : List Nat}

theorem graph_eq (id : Nat) (p : Pattern) :
    p.graph id = withRoot id p.label (graphParts id (id + 1) p.children) := by
  cases p <;> simp [graph, children, graphParts, withRoot, withEdge]

/-! ### Numbers -/

theorem graphParts_snd (ih : ∀ p ∈ ps, ∀ id, (p.graph id).2 = id + p.nodeCount) :
    (graphParts parent id ps).2 = id + nodeCounts ps := by
  induction ps generalizing id with
  | nil => rfl
  | cons p ps ihps =>
    obtain ⟨hp, hps⟩ := List.forall_mem_cons.1 ih
    rw [graphParts]
    simp only [withEdge]
    rw [ihps hps, hp, nodeCounts, Nat.add_assoc]

/-- A pattern takes as many numbers as it has nodes. -/
theorem graph_snd (id : Nat) (p : Pattern) : (p.graph id).2 = id + p.nodeCount := by
  induction p using inductParts generalizing id with
  | node p ih =>
    rw [graph_eq, withRoot]
    simp only
    rw [graphParts_snd ih, nodeCount_eq]
    omega

theorem graphParts_cons (parent id : Nat) (p : Pattern) (ps : List Pattern) :
    (graphParts parent id (p :: ps)).1 = (p.graph id).1 ++
      .edge parent id :: (graphParts parent (id + p.nodeCount) ps).1 := by
  rw [graphParts]
  simp [withEdge, graph_snd]

/-! ### Lines of nodes -/

/-- The numbers and labels of nodes that are numbered from `id` on. -/
def numbered (id : Nat) (ns : List (List Nat × Pattern)) : List (Nat × String) :=
  (ns.zipIdx id).map fun x => (x.2, x.1.2.label)

theorem numbered_append (id : Nat) (ns ms : List (List Nat × Pattern)) :
    numbered id (ns ++ ms) = numbered id ns ++ numbered (id + ns.length) ms := by
  simp [numbered, List.zipIdx_append]

theorem numbered_under (id : Nat) (w : List Nat) (ns : List (List Nat × Pattern)) :
    numbered id (under w ns) = numbered id ns := by
  simp [numbered, under, List.zipIdx_map, Function.comp_def]

theorem map_fst_numbered (id : Nat) (ns : List (List Nat × Pattern)) :
    (numbered id ns).map Prod.fst = List.range' id ns.length := by
  rw [numbered, List.map_map]
  exact List.zipIdx_map_snd id ns

theorem map_snd_numbered (id : Nat) (ns : List (List Nat × Pattern)) :
    (numbered id ns).map Prod.snd = ns.map (·.2.label) := by
  conv_rhs => rw [← List.zipIdx_map_fst id ns]
  rw [numbered, List.map_map, List.map_map]
  rfl

theorem nodeLines_graphParts
    (ih : ∀ p ∈ ps, ∀ id, nodeLines (p.graph id).1 = numbered id p.nodes) :
    nodeLines (graphParts parent id ps).1 = numbered id (partNodes k ps) := by
  induction ps generalizing id k with
  | nil => rfl
  | cons p ps ihps =>
    obtain ⟨hp, hps⟩ := List.forall_mem_cons.1 ih
    have hrest : nodeLines (graphParts parent (id + p.nodeCount) ps).1 =
        numbered (id + p.nodeCount) (partNodes (k + 1) ps) := ihps hps
    rw [graphParts_cons, partNodes, numbered_append, numbered_under, length_under, length_nodes,
      ← hp, ← hrest]
    simp [nodeLines]

/-- The lines of the nodes are those of the nodes in preorder. -/
theorem nodeLines_graph (id : Nat) (p : Pattern) :
    nodeLines (p.graph id).1 = numbered id p.nodes := by
  induction p using inductParts generalizing id with
  | node p ih =>
    have hparts : nodeLines (graphParts id (id + 1) p.children).1 =
        numbered (id + 1) (partNodes 0 p.children) := nodeLines_graphParts ih
    rw [graph_eq, nodes_eq]
    show (id, p.label) :: nodeLines (graphParts id (id + 1) p.children).1 = _
    rw [hparts]
    rfl

/-! ### Edges -/

theorem edgeLines_graph (id : Nat) (p : Pattern) :
    edgeLines (p.graph id).1 = edgeLines (graphParts id (id + 1) p.children).1 := by
  rw [graph_eq]
  rfl

theorem edgeLines_graphParts_cons (parent id : Nat) (p : Pattern) (ps : List Pattern) :
    edgeLines (graphParts parent id (p :: ps)).1 = edgeLines (p.graph id).1 ++
      (parent, id) :: edgeLines (graphParts parent (id + p.nodeCount) ps).1 := by
  rw [graphParts_cons]
  simp [edgeLines]

theorem perm_targets_graphParts
    (ih : ∀ p ∈ ps, ∀ id, ((edgeLines (p.graph id).1).map Prod.snd).Perm
      (List.range' (id + 1) (nodeCounts p.children))) :
    ((edgeLines (graphParts parent id ps).1).map Prod.snd).Perm
      (List.range' id (nodeCounts ps)) := by
  induction ps generalizing id with
  | nil => exact .nil
  | cons p ps ihps =>
    obtain ⟨hp, hps⟩ := List.forall_mem_cons.1 ih
    -- the numbers below the part, its own number, and those of the other parts
    have hrange : List.range' id (nodeCounts (p :: ps)) = id ::
        (List.range' (id + 1) (nodeCounts p.children) ++
          List.range' (id + p.nodeCount) (nodeCounts ps)) := by
      rw [nodeCounts, nodeCount_eq, Nat.add_right_comm, List.range'_succ, ← Nat.add_assoc,
        Nat.add_right_comm, List.range'_append_1]
    rw [edgeLines_graphParts_cons, List.map_append, List.map_cons, hrange]
    exact List.perm_middle.trans (((hp id).append (ihps hps)).cons id)

/-- The edges lead to all numbers but that of the root, to each of them once. -/
theorem perm_targets_graph (id : Nat) (p : Pattern) :
    ((edgeLines (p.graph id).1).map Prod.snd).Perm
      (List.range' (id + 1) (nodeCounts p.children)) := by
  induction p using inductParts generalizing id with
  | node p ih =>
    rw [edgeLines_graph]
    exact perm_targets_graphParts ih

section Targets

variable (ns : List (List Nat × Pattern))

/-- The nodes to which the edges from a number lead, if `ns` are the nodes in the order of their
numbers. -/
def targetNodes (es : List (Nat × Nat)) (a : Nat) : List (Option (List Nat × Pattern)) :=
  (targetsFrom es a).map (ns[·]?)

/-- The direct parts of the node with a number. -/
def partsOf (a : Nat) : List (Option (List Nat × Pattern)) :=
  match ns[a]? with
  | some (w, q) => addressed w 0 q.children
  | none => []

theorem targetNodes_append (es fs : List (Nat × Nat)) (a : Nat) :
    targetNodes ns (es ++ fs) a = targetNodes ns es a ++ targetNodes ns fs a := by
  simp [targetNodes, targetsFrom]

theorem targetNodes_cons (source target : Nat) (es : List (Nat × Nat)) (a : Nat) :
    targetNodes ns ((source, target) :: es) a =
      (if a = source then [ns[target]?] else []) ++ targetNodes ns es a := by
  by_cases h : a = source
  · simp [targetNodes, targetsFrom, h]
  · simp [targetNodes, targetsFrom, h, Ne.symm h]

variable {ns}

theorem mem_targetNodes {es : List (Nat × Nat)} {a : Nat} {n : Option (List Nat × Pattern)} :
    n ∈ targetNodes ns es a ↔ ∃ b, (a, b) ∈ es ∧ ns[b]? = n := by
  simp [targetNodes, targetsFrom]

theorem mem_addressed {n : Option (List Nat × Pattern)} :
    n ∈ addressed w 0 ps ↔ ∃ k c, ps[k]? = some c ∧ n = some (w ++ [k], c) := by
  rw [addressed, List.mem_map]
  constructor
  · rintro ⟨⟨c, k⟩, hc, rfl⟩
    exact ⟨k, c, List.mem_zipIdx_iff_getElem?.1 hc, rfl⟩
  · rintro ⟨k, c, hc, rfl⟩
    exact ⟨(c, k), List.mem_zipIdx_iff_getElem?.2 hc, rfl⟩

/-- If the nodes of some parts stand in their place in `ns`, then the edges that are drawn with the
parts lead from the node above to them and from each of their nodes to its own parts. -/
theorem targetNodes_graphParts {a : Nat}
    (ih : ∀ p ∈ ps, ∀ id w, under w p.nodes <+: ns.drop id →
      targetNodes ns (edgeLines (p.graph id).1) a =
        if id ≤ a ∧ a < id + p.nodeCount then partsOf ns a else [])
    (hparent : parent < id) (h : under w (partNodes k ps) <+: ns.drop id) :
    targetNodes ns (edgeLines (graphParts parent id ps).1) a =
      if a = parent then addressed w k ps
      else if id ≤ a ∧ a < id + nodeCounts ps then partsOf ns a else [] := by
  induction ps generalizing id k with
  | nil =>
    have hempty : ¬(id ≤ a ∧ a < id + nodeCounts []) := fun h => absurd h.1 (Nat.not_le.2 h.2)
    rw [if_neg hempty]
    exact (ite_self []).symm
  | cons p ps ihps =>
    obtain ⟨hp, hps⟩ := List.forall_mem_cons.1 ih
    rw [partNodes, under_append, under_under] at h
    obtain ⟨hpart, hrest⟩ := prefix_drop_append h
    rw [length_under, length_nodes] at hrest
    have hroot : ns[id]? = some (w ++ [k], p) := by
      rw [nodes_eq] at hpart
      simpa using (prefix_drop_cons hpart).1
    rw [edgeLines_graphParts_cons, targetNodes_append, targetNodes_cons, hp id _ hpart,
      ihps hps (Nat.lt_add_right _ hparent) hrest, hroot]
    by_cases ha : a = parent
    · have hbelow : ¬(id ≤ a ∧ a < id + p.nodeCount) := by omega
      rw [if_neg hbelow, if_pos ha, if_pos ha, if_pos ha]
      rfl
    · rw [if_neg ha, if_neg ha, if_neg ha, nodeCounts]
      by_cases hlow : a < id + p.nodeCount
      · have hlater : ¬(id + p.nodeCount ≤ a ∧ a < id + p.nodeCount + nodeCounts ps) := by omega
        rw [if_neg hlater, List.append_nil, List.append_nil]
        exact if_congr (by omega) rfl rfl
      · have hearlier : ¬(id ≤ a ∧ a < id + p.nodeCount) := by omega
        rw [if_neg hearlier, List.nil_append, List.nil_append]
        exact if_congr (by omega) rfl rfl

/-- If the nodes of a pattern stand in their place in `ns`, then the edges that are drawn with it
lead from each of its nodes to the parts of that node, in their order. -/
theorem targetNodes_graph {a : Nat} (id : Nat) (w : List Nat) (p : Pattern)
    (h : under w p.nodes <+: ns.drop id) :
    targetNodes ns (edgeLines (p.graph id).1) a =
      if id ≤ a ∧ a < id + p.nodeCount then partsOf ns a else [] := by
  induction p using inductParts generalizing id w with
  | node p ih =>
    rw [nodes_eq] at h
    obtain ⟨hroot, hparts⟩ := prefix_drop_cons h
    have hroot : ns[id]? = some (w, p) := by simpa using hroot
    have hedges :=
      targetNodes_graphParts (fun q hq id w => ih q hq id w) (Nat.lt_succ_self id) hparts
    rw [edgeLines_graph, hedges, nodeCount_eq]
    by_cases ha : a = id
    · have hin : id ≤ a ∧ a < id + (nodeCounts p.children + 1) := by omega
      rw [if_pos ha, if_pos hin, ha, partsOf, hroot]
    · rw [if_neg ha]
      exact if_congr (by omega) rfl rfl

end Targets

/-! ### Drawings -/

/-- The edges from the nodes of a whole pattern lead to their parts, and no other ones do. -/
theorem targetNodes_nodes (p : Pattern) (a : Nat) :
    targetNodes p.nodes (edgeLines (p.graph 0).1) a = partsOf p.nodes a := by
  have hstand : under [] p.nodes <+: p.nodes.drop 0 := by simp [under]
  rw [targetNodes_graph 0 [] p hstand]
  by_cases ha : a < p.nodeCount
  · rw [if_pos ⟨Nat.zero_le a, by omega⟩]
  · have hnone : p.nodes[a]? = none := by
      rw [List.getElem?_eq_none_iff, length_nodes]
      exact Nat.not_lt.1 ha
    rw [if_neg (by omega), partsOf, hnone]

theorem mem_edgeLines_graph {a b : Nat} : (a, b) ∈ edgeLines (p.graph 0).1 ↔
    ∃ w q k c, p.nodes[a]? = some (w, q) ∧ q.children[k]? = some c ∧
      p.nodes[b]? = some (w ++ [k], c) := by
  constructor
  · intro h
    have htargets : p.nodes[b]? ∈ targetNodes p.nodes (edgeLines (p.graph 0).1) a :=
      mem_targetNodes.2 ⟨b, h, rfl⟩
    rw [targetNodes_nodes] at htargets
    unfold partsOf at htargets
    split at htargets
    next w q ha =>
      obtain ⟨k, c, hc, hb⟩ := mem_addressed.1 htargets
      exact ⟨w, q, k, c, ha, hc, hb⟩
    next => cases htargets
  · rintro ⟨w, q, k, c, ha, hc, hb⟩
    have hpart : some (w ++ [k], c) ∈ partsOf p.nodes a := by
      rw [partsOf, ha]
      exact mem_addressed.2 ⟨k, c, hc, rfl⟩
    rw [← targetNodes_nodes p a] at hpart
    obtain ⟨b', hedge, hb'⟩ := mem_targetNodes.1 hpart
    -- no two numbers are those of one node
    have hlt : b' < p.nodes.length := (List.getElem?_eq_some_iff.1 hb').1
    obtain rfl : b' = b := (List.getElem?_inj hlt p.nodup_nodes).1 (hb'.trans hb.symm)
    exact hedge

/-- The lines that are made for a pattern draw it. -/
theorem draws_graph (p : Pattern) : p.Draws (p.graph 0).1 where
  numbers := by
    rw [nodeLines_graph, map_fst_numbered, length_nodes, List.range_eq_range']
  labels := by
    rw [nodeLines_graph, map_snd_numbered]
  length_edges := by
    rw [← List.length_map Prod.snd, (perm_targets_graph 0 p).length_eq, List.length_range',
      nodeCount_eq, Nat.add_sub_cancel]
  mem_edges _ _ := mem_edgeLines_graph
  one_edge b hpos hb := by
    rw [nodeCount_eq] at hb
    rw [(perm_targets_graph 0 p).count_eq]
    exact List.count_eq_one_of_mem List.nodup_range' (List.mem_range'_1.2 ⟨hpos, by omega⟩)
  targets a w q ha := by
    have htargets : targetNodes p.nodes (edgeLines (p.graph 0).1) a = addressed w 0 q.children := by
      rw [targetNodes_nodes, partsOf, ha]
    exact htargets

end Pattern

/-- **The drawing of a pattern is its tree.** Whatever the pattern, there is one way to read its
drawing off the text, and what is read draws the pattern: a line for each of its nodes, numbered in
preorder, and an edge from each of them to each of its direct parts. The preorder is that of
`Pattern.nodes`, in which the nodes are just those that have an address, as many as the pattern has,
and their addresses ascend. -/
theorem drawings_are_their_trees (p : Pattern) :
    (p.nodes.length = p.nodeCount ∧ p.nodes.Pairwise (·.1 < ·.1) ∧
      ∀ w q, (w, q) ∈ p.nodes ↔ p.nodeAt? w = some q) ∧
    ∃ ls, (∀ ls', Reads (p.toDot.toList.splitOn '\n') ls' ↔ ls' = ls) ∧ p.Draws ls := by
  refine ⟨⟨p.length_nodes, p.pairwise_nodes, fun _ _ => Pattern.mem_nodes⟩, ?_⟩
  exact ⟨(p.graph 0).1, fun _ => Pattern.reads_toDot_iff, p.draws_graph⟩

-- the edge to a part comes after the edges below the part
example : edgeLines ((Pattern.alt [.seq [.lit 'a', .lit 'b'], .lit 'c']).graph 0).1 =
    [(1, 2), (1, 3), (0, 1), (0, 4)] := by
  decide

end PatternSweep
