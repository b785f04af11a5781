import PatternSweep.Proofs.ReaderTexts

/-!
# The depth of patterns that are read

A derivation gives a pattern depth in few places. An alternation, a sequence and a repetition add a
layer each between one group and the next, an atom adds one, and a lookahead one more around what it
is made of. Since groups nest at most `nestingLimit` deep, and a lookahead counts as a group around
both its condition and its body, four layers for each group and four more are all there can be
(`depth_add_le_of_derives`), however long the text is. The bound is reached
(`exists_derives_depth_eq`).
-/

namespace PatternSweep

open Grammar

namespace Pattern

variable {ps : List Pattern} {n : Nat}

theorem depths_le_iff : depths ps ≤ n ↔ ∀ p ∈ ps, p.depth ≤ n := by
  induction ps with
  | nil => simp [depths]
  | cons p ps ih => rw [depths, Nat.max_le, ih, List.forall_mem_cons]

/-- One layer more at the most stands around several patterns. -/
theorem depth_oneOr_le {f : List Pattern → Pattern} (hf : ∀ ps, (f ps).depth = 1 + depths ps)
    (h : ∀ p ∈ ps, p.depth ≤ n) : (oneOr f ps).depth ≤ n + 1 := by
  have hall : (f ps).depth ≤ n + 1 := by
    rw [hf, Nat.add_comm]
    exact Nat.succ_le_succ (depths_le_iff.2 h)
  match ps with
  | [] => exact hall
  | [p] => exact Nat.le_succ_of_le (h p List.mem_cons_self)
  | _ :: _ :: _ => exact hall

end Pattern

namespace Grammar

/-- The number of layers that a phrase of a kind may have outside of any group. -/
def Phrase.layers : Phrase → Nat
  | .atom => 1
  | .factor => 2
  | .term => 3
  | .expression => 4

/-- **Every group that a text may still open allows for four layers.** -/
theorem depth_add_le_of_derives {kind : Phrase} {d : Nat} {u : List Char} {p : Pattern}
    (h : Derives kind d u p) (hd : d ≤ nestingLimit) :
    p.depth + 4 * d ≤ 4 * nestingLimit + kind.layers := by
  -- the parts of a phrase leave room for one layer more
  have hparts : ∀ {xs : List (List Char × Pattern)} {d k : Nat},
      (∀ x ∈ xs, x.2.depth + 4 * d ≤ 4 * nestingLimit + k) →
      ∀ p ∈ xs.map Prod.snd, p.depth ≤ 4 * nestingLimit + k - 4 * d := by
    intro xs d k h p hp
    obtain ⟨x, hx, rfl⟩ := List.mem_map.1 hp
    exact Nat.le_sub_of_add_le (h x hx)
  induction h with
  | expression terms _ _ ih =>
    have := Pattern.depth_oneOr_le (f := .alt) (fun _ => rfl) (hparts fun x hx => ih x hx hd)
    simp only [Phrase.layers] at *
    omega
  | term factors _ _ ih =>
    have := Pattern.depth_oneOr_le (f := .seq) (fun _ => rfl) (hparts fun x hx => ih x hx hd)
    simp only [Phrase.layers] at *
    omega
  | once _ ih => exact Nat.le_succ_of_le (ih hd)
  | quantified _ _ ih =>
    have := ih hd
    simp only [Phrase.layers, Pattern.depth] at *
    omega
  | character | any | escape | shorthand | brackets =>
    simp only [Phrase.layers, Pattern.lit, Pattern.depth]
    omega
  | group hlt _ _ ih =>
    have := ih hlt
    simp only [Phrase.layers] at *
    omega
  | ahead hlt _ _ _ ihc ihp =>
    have := ihc hlt
    have := ihp hlt
    simp only [Phrase.layers, Pattern.depth] at *
    omega

/-- An atom can be put three layers deeper without a group. -/
theorem exists_derives_of_atom {d : Nat} {u : List Char} {p : Pattern} (h : Derives .atom d u p) :
    ∃ v q, Derives .expression d v q ∧ q.depth = p.depth + 3 := by
  have hstar : Derives .factor d (u ++ ['*']) (.repeated p 0 none) := .quantified h .star
  have hletter : Derives .factor d ['a'] (.lit 'a') := .once (.character (by decide))
  have hterm := Derives.term [(_, _), (_, _)] (List.cons_ne_nil _ _)
    (List.forall_mem_cons.2 ⟨hstar, List.forall_mem_singleton.2 hletter⟩)
  have hexpression := Derives.expression [(_, _), (_, _)] (List.cons_ne_nil _ _)
    (List.forall_mem_cons.2 ⟨hterm, List.forall_mem_singleton.2 hletter.term_of_factor⟩)
  refine ⟨_, _, hexpression, ?_⟩
  simp only [List.map_cons, List.map_nil, oneOr, Pattern.depth, Pattern.depths]
  omega

/-- With room for `k` more groups an expression can have four layers for each of them, and four. -/
theorem exists_derives_depth_eq {k : Nat} (hk : k ≤ nestingLimit) :
    ∃ u p, Derives .expression (nestingLimit - k) u p ∧ p.depth = 4 * (k + 1) := by
  induction k with
  | zero =>
    have hletter : Derives .atom (nestingLimit - 0) ['a'] (.lit 'a') := .character (by decide)
    exact exists_derives_of_atom hletter
  | succ k ih =>
    obtain ⟨u, p, hp, hdepth⟩ := ih (Nat.le_of_succ_le hk)
    have hroom : nestingLimit - (k + 1) < nestingLimit := by omega
    have hlevel : nestingLimit - k = nestingLimit - (k + 1) + 1 := by omega
    rw [hlevel] at hp
    -- the expression as the condition of a lookahead is a layer deeper, and three around that
    obtain ⟨v, q, hq, hlayers⟩ := exists_derives_of_atom
      (.ahead hroom .ahead hp (.character (c := 'a') (by decide)))
    refine ⟨v, q, hq, ?_⟩
    rw [hlayers, Pattern.depth, Pattern.lit, Pattern.depth, hdepth]
    omega

end Grammar

/-- **The nesting limit bounds the depth of patterns.** However long a text is, the pattern that it
is parsed to has a depth of at most four times the nesting limit and four, and some text reaches
this bound. -/
theorem depth_of_parsed_patterns_is_bounded :
    (∀ (written : String) (p : Pattern), Pattern.parse written = .ok p →
      p.depth ≤ 4 * (nestingLimit + 1)) ∧
    4 * (nestingLimit + 1) = 516 ∧
    ∃ (written : String) (p : Pattern), Pattern.parse written = .ok p ∧ p.depth = 516 := by
  refine ⟨fun written p h => ?_, rfl, ?_⟩
  · exact depth_add_le_of_derives (Pattern.derives_of_parseChars h) (Nat.zero_le _)
  · obtain ⟨u, p, hp, hdepth⟩ := exists_derives_depth_eq (Nat.le_refl nestingLimit)
    rw [Nat.sub_self] at hp
    refine ⟨String.ofList u, p, ?_, hdepth⟩
    unfold Pattern.parse
    rw [String.toList_ofList]
    exact Pattern.parseChars_of_derives hp

/-- The pattern of a text with one group has seven layers. -/
theorem depth_of_parsed_patterns_is_bounded_in_ab :
    Pattern.parse "(?=a|b*)b*a|a" = .ok (.alt [.seq [.repeated (.ahead true
        (.alt [.lit 'a', .repeated (.lit 'b') 0 none]) (.lit 'b')) 0 none, .lit 'a'], .lit 'a']) ∧
      Pattern.depth (.alt [.seq [.repeated (.ahead true
        (.alt [.lit 'a', .repeated (.lit 'b') 0 none]) (.lit 'b')) 0 none, .lit 'a'], .lit 'a']) ≤
        4 * (nestingLimit + 1) := by
  obtain ⟨hbound, -, -⟩ := depth_of_parsed_patterns_is_bounded
  have hparse : Pattern.parse "(?=a|b*)b*a|a" = .ok (.alt [.seq [.repeated (.ahead true
      (.alt [.lit 'a', .repeated (.lit 'b') 0 none]) (.lit 'b')) 0 none, .lit 'a'], .lit 'a']) :=
    rfl
  exact ⟨hparse, hbound _ _ hparse⟩

end PatternSweep
