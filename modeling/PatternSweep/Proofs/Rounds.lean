import PatternSweep.Proofs.Iterate
import PatternSweep.Repetition

/-!
# What a repetition reaches

A `View` sees sets of one shape as predicates on their elements: `V.Shows s P` says that `s` has
that shape and that its elements are those of `P`. The step of a repetition realises a relation `R`
if it turns a set that shows `P` into one that shows `Image R P`.

If what `R` reaches has settled after `top` steps and each phase has room for `top + 1`
applications, then a repetition reaches exactly what the permitted numbers of steps of `R` reach,
and it is never cut (`always_run`). Neither of its two phases sees an end of its room: the first one
finds an image that is empty or the set itself after `top + 1` applications at the latest
(`always_exact`), and the second one stops growing as soon as what is reached has settled
(`always_grow`). Together they apply the step `top + 2` times at the most.

The step may be any computation whose results can be spoken about by a `Modality`, which may also
report something on the way. If every application reports its number and what `Repetition.view`
makes of the set and its image, then the reports tell what the repetition has reached so far
(`Course`).
-/

namespace PatternSweep

/-- What one step of `R` leads to from the elements of `P`. -/
def Image {α β : Type} (R : α → β → Prop) (P : α → Prop) (b : β) : Prop := ∃ a, P a ∧ R a b

/-- A way to say that whatever a computation gives and reports has a property. -/
structure Modality (m : Type → Type) [Monad m] (ρ : Type) where
  always : {β : Type} → m β → (β → List ρ → Prop) → Prop
  pure : ∀ {β : Type} {a : β} {P : β → List ρ → Prop}, P a [] → always (pure a) P
  bind : ∀ {β γ : Type} {x : m β} {f : β → m γ} {P : β → List ρ → Prop} {Q : γ → List ρ → Prop},
    always x P → (∀ a l, P a l → always (f a) fun b l' => Q b (l ++ l')) → always (x >>= f) Q
  imp : ∀ {β : Type} {x : m β} {P Q : β → List ρ → Prop},
    always x P → (∀ a l, P a l → Q a l) → always x Q

/-- A property of computations that plain results have and that goes over to one computation after
the other. -/
structure Closed (m : Type → Type) [Monad m] (K : {β : Type} → m β → Prop) : Prop where
  pure : ∀ {β : Type} {a : β}, K (pure a : m β)
  bind : ∀ {β γ : Type} {x : m β} {f : β → m γ}, K x → (∀ a, K (f a)) → K (x >>= f)

namespace Closed

open Repetition

variable {m : Type → Type} [Monad m] {K : {β : Type} → m β → Prop} (hK : Closed m K)

include hK

/-- What each member of a list has, going through the list has. -/
theorem through {ι β γ δ : Type} {ps : List ι} (go : List ι → γ → m β) (f : ι → γ → m δ)
    (next : γ → δ → γ) (last : γ → β) (hnil : ∀ c, go [] c = Pure.pure (last c))
    (hcons : ∀ p ps c, go (p :: ps) c = f p c >>= fun r => go ps (next c r))
    (h : ∀ p ∈ ps, ∀ c, K (f p c)) (c : γ) : K (go ps c) := by
  induction ps generalizing c with
  | nil =>
    rw [hnil]
    exact hK.pure
  | cons p ps ih =>
    rw [hcons]
    exact hK.bind (h p (by simp) c) fun r => ih (fun q hq => h q (List.mem_cons_of_mem _ hq)) _

variable {σ : Type} [JoinSet σ] [DecidableEq σ] {step : σ → Nat → m σ} {input set : σ}
  {min room done ceiling : Nat} {max extra : Option Nat} (hstep : ∀ set n, K (step set n))

include hstep

theorem exact : K (exact step min room done set) := by
  induction room generalizing done set with
  | zero => exact hK.pure
  | succ room ih =>
    unfold Repetition.exact
    split
    next => exact hK.pure
    next =>
      refine hK.bind (hstep _ _) fun next => ?_
      split
      next => exact hK.pure
      next =>
        split
        next => exact hK.pure
        next => exact ih

theorem grow : K (grow step min extra room done set) := by
  induction room generalizing done set with
  | zero => exact hK.pure
  | succ room ih =>
    unfold Repetition.grow
    split
    next => exact hK.pure
    next =>
      refine hK.bind (hstep _ _) fun next => ?_
      simp only
      split
      next => exact hK.pure
      next => exact ih

/-- What every application of a step has, the repetition has. -/
theorem run : K (run input min max ceiling step) := by
  unfold Repetition.run
  refine hK.bind (hK.exact hstep) fun first => ?_
  cases first with
  | dead => exact hK.pure
  | alive => exact hK.bind (hK.grow hstep) fun r => hK.pure

end Closed

/-- Sets of one shape, seen by their elements. -/
structure View (σ α : Type) [JoinSet σ] where
  /-- The sets of the shape. -/
  Dom : σ → Prop
  Mem : σ → α → Prop
  ext : ∀ {s t}, Dom s → Dom t → (∀ a, Mem s a ↔ Mem t a) → s = t
  dom_join : ∀ {s t}, Dom s → Dom t → Dom (JoinSet.join s t)
  mem_join : ∀ {s t a}, Dom s → Dom t → (Mem (JoinSet.join s t) a ↔ Mem s a ∨ Mem t a)
  isEmpty_iff : ∀ {s}, Dom s → (JoinSet.isEmpty s = true ↔ ∀ a, ¬Mem s a)

namespace View

variable {σ α : Type} [JoinSet σ] (V : View σ α) {s t : σ} {P Q : α → Prop}

/-- `s` is a set of the shape, and its elements are those of `P`. -/
def Shows (s : σ) (P : α → Prop) : Prop := V.Dom s ∧ ∀ a, V.Mem s a ↔ P a

variable {V}

theorem Shows.congr (h : V.Shows s P) (hPQ : ∀ a, P a ↔ Q a) : V.Shows s Q :=
  ⟨h.1, fun a => (h.2 a).trans (hPQ a)⟩

theorem Shows.eq (hs : V.Shows s P) (ht : V.Shows t P) : s = t :=
  V.ext hs.1 ht.1 fun a => (hs.2 a).trans (ht.2 a).symm

theorem Shows.join (hs : V.Shows s P) (ht : V.Shows t Q) :
    V.Shows (JoinSet.join s t) fun a => P a ∨ Q a :=
  ⟨V.dom_join hs.1 ht.1, fun a => (V.mem_join hs.1 ht.1).trans (or_congr (hs.2 a) (ht.2 a))⟩

theorem Shows.isEmpty_iff (hs : V.Shows s P) : JoinSet.isEmpty s = true ↔ ∀ a, ¬P a :=
  (V.isEmpty_iff hs.1).trans (forall_congr' fun a => not_congr (hs.2 a))

end View

namespace Repetition

variable {σ α : Type} [JoinSet σ]

/-! ### Reports -/

section

variable (V : View σ α) (R : α → α → Prop) (P : α → Prop) (min : Nat)

/-- What a report has to tell: up to the least count what its number of steps reaches, and past it
what any number of steps from the least count up to its own reaches. -/
def Tells (r : Nat × σ) : Prop :=
  (r.1 ≤ min → V.Shows r.2 (Reaches R P r.1)) ∧
    (min < r.1 → V.Shows r.2 fun b => ∃ k, min ≤ k ∧ k ≤ r.1 ∧ Reaches R P k b)

/-- The reports of a repetition that leads from `input` to `last`: their numbers ascend from one,
each tells what it has to, and the last one has the result. -/
structure Reports (input last : σ) (l : List (Nat × σ)) : Prop where
  ascending : l.Pairwise fun x y => x.1 < y.1
  first : ∀ x ∈ l.head?, x.1 = 1
  tells : ∀ x ∈ l, Tells V R P min x
  last_eq : (l.map (·.2)).getLastD input = last

/-- The reports of a phase that leads from `set` to `last`: their numbers follow `done` one by one,
each tells what it has to, and the last one has the result. -/
structure Phase (done : Nat) (set last : σ) (l : List (Nat × σ)) : Prop where
  numbers : l.map (·.1) = List.range' (done + 1) l.length
  tells : ∀ r ∈ l, Tells V R P min r
  last_eq : (l.map (·.2)).getLastD set = last

end

section

variable {V : View σ α} {R : α → α → Prop} {P : α → Prop} {min done : Nat}
  {set mid last next : σ} {l l₁ l₂ : List (Nat × σ)} {x : Nat × σ}

theorem Phase.nil : Phase V R P min done set set [] := ⟨rfl, by simp, rfl⟩

theorem Phase.cons (h : Phase V R P min (done + 1) next last l)
    (hr : Tells V R P min (done + 1, next)) :
    Phase V R P min done set last ((done + 1, next) :: l) where
  numbers := by rw [List.map_cons, h.numbers, List.length_cons, List.range'_succ]
  tells := List.forall_mem_cons.2 ⟨hr, h.tells⟩
  last_eq := by rw [List.map_cons, List.getLastD_cons, h.last_eq]

theorem Phase.bounds (h : Phase V R P min done set last l) (hx : x ∈ l) :
    done < x.1 ∧ x.1 ≤ done + l.length := by
  have hnumber : x.1 ∈ l.map (·.1) := List.mem_map_of_mem hx
  rw [h.numbers, List.mem_range'_1] at hnumber
  omega

theorem Phase.ascending (h : Phase V R P min done set last l) :
    l.Pairwise fun x y => x.1 < y.1 := by
  rw [← List.pairwise_map (R := (· < ·)), h.numbers]
  exact List.pairwise_lt_range'

theorem Phase.first (h : Phase V R P min done set last l) (hx : x ∈ l.head?) :
    x.1 = done + 1 := by
  cases l with
  | nil => cases hx
  | cons y l =>
    obtain rfl := Option.some.inj hx
    exact (List.cons.inj h.numbers).1

/-- One phase after the other: the second one goes on with its numbers from `done`. -/
theorem Phase.append (h₁ : Phase V R P min 0 set mid l₁) (h₂ : Phase V R P min done mid last l₂)
    (hdone : l₁.length ≤ done) (hnil : l₁ = [] → done = 0) :
    Reports V R P min set last (l₁ ++ l₂) where
  ascending := by
    refine List.pairwise_append.2 ⟨h₁.ascending, h₂.ascending, fun x hx y hy => ?_⟩
    have := h₁.bounds hx
    have := h₂.bounds hy
    omega
  first := by
    cases l₁ with
    | nil =>
      obtain rfl := hnil rfl
      exact fun x hx => h₂.first hx
    | cons y l₁ => exact fun x hx => h₁.first hx
  tells := List.forall_mem_append.2 ⟨h₁.tells, h₂.tells⟩
  last_eq := by
    have hmid := h₁.last_eq
    have hlast := h₂.last_eq
    rw [List.getLastD_eq_getLast?] at hmid hlast ⊢
    rw [List.map_append, List.getLast?_append, Option.getD_or, hmid, hlast]

theorem tells_exact (hset : V.Shows set (Reaches R P done)) (hmin : done ≤ min) :
    Tells V R P min (done, set) :=
  ⟨fun _ => hset, fun hlt => absurd hlt (Nat.not_lt.2 hmin)⟩

theorem tells_grown (hset : V.Shows set (Gathers R P min (done + 1))) :
    Tells V R P min (min + done + 1, set) :=
  ⟨fun hle => absurd hle (by simp only; omega), fun _ => hset.congr fun _ => gathers_iff⟩

end

/-! ### The two phases -/

variable {m : Type → Type} [Monad m] [DecidableEq σ] (M : Modality m (Nat × σ)) {V : View σ α}
  {R : α → α → Prop} {P : α → Prop} {top min ceiling : Nat} {step : σ → Nat → m σ} {set : σ}
  {room done : Nat}

/-- What the applications up to the least count have to show: nothing, if nothing is reached any
more, and else what `min` steps reach; and if they are fewer than `min`, a further step changes
nothing. -/
def Exact.Shows (V : View σ α) (R : α → α → Prop) (P : α → Prop) (min : Nat) : Exact σ → Prop
  | .dead last _ => V.Shows last (fun _ => False) ∧ ∀ b, ¬Reaches R P min b
  | .alive last n cut => V.Shows last (Reaches R P min) ∧ cut = false ∧
      (n = min ∨ 0 < n ∧ ∀ b, Reaches R P (min + 1) b ↔ Reaches R P min b)

/-- The set of an outcome. -/
def Exact.reached : Exact σ → σ
  | .dead last _ => last
  | .alive last _ _ => last

/-- The number of applications of an outcome. -/
def Exact.applications : Exact σ → Nat
  | .dead _ n => n
  | .alive _ n _ => n

variable (hR : Settles R P top)
  (hstep : ∀ set Q n, V.Shows set Q → M.always (step set n) fun next l =>
    V.Shows next (Image R Q) ∧ l = [(n, view set next n min)])

include hR hstep

/-- After `done` applications the set shows what `done` steps reach. As long as what is reached has
not settled the image may be new; then it is not, and the phase ends. -/
theorem always_exact (hset : V.Shows set (Reaches R P done)) (hmin : done ≤ min)
    (hdone : done ≤ top) (hroom : top + 1 ≤ room + done) :
    M.always (exact step min room done set) fun first l => first.Shows V R P min ∧
      Phase V R P min done set first.reached l ∧ first.applications = done + l.length ∧
      first.applications ≤ min ∧ first.applications ≤ top + 1 := by
  induction room generalizing done set with
  | zero => omega
  | succ room ih =>
    unfold exact
    split
    next hle =>
      obtain rfl : done = min := Nat.le_antisymm hmin hle
      exact M.pure ⟨⟨hset, rfl, Or.inl rfl⟩, .nil, rfl, hmin, Nat.le_succ_of_le hdone⟩
    next hlt =>
      have hlt : done < min := Nat.lt_of_not_le hlt
      refine M.bind (hstep set _ _ hset) ?_
      rintro next _ ⟨hnext, rfl⟩
      have hnext : V.Shows next (Reaches R P (done + 1)) :=
        hnext.congr fun b => reaches_succ.symm
      have htells : Tells V R P min (done + 1, next) := tells_exact hnext hlt
      have hview : view set next (done + 1) min = next := if_pos (Nat.succ_le_of_lt hlt)
      rw [hview]
      split
      next hempty =>
        have hnone : ∀ b, ¬Reaches R P (done + 1) b := hnext.isEmpty_iff.1 hempty
        refine M.pure ⟨⟨hnext.congr fun b => iff_of_false (hnone b) id, ?_⟩, Phase.nil.cons htells,
          rfl, hlt, Nat.succ_le_succ hdone⟩
        exact not_reaches_of_le hnone hlt
      next hsome =>
        split
        next hsame =>
          -- the set is its own image, so it stands for any number of further steps
          have hstays : ∀ b, Reaches R P (done + 1) b ↔ Reaches R P done b := by
            subst hsame
            exact fun b => (hnext.2 b).symm.trans (hset.2 b)
          have hmost : ∀ b, Reaches R P min b ↔ Reaches R P done b := reaches_iff_of_le hstays hmin
          refine M.pure ⟨⟨hset.congr fun b => (hmost b).symm, rfl,
            Or.inr ⟨Nat.succ_pos done, fun b => ?_⟩⟩, ?_, rfl, hlt, Nat.succ_le_succ hdone⟩
          · exact (reaches_iff_of_le hstays (Nat.le_succ_of_le hmin) b).trans (hmost b).symm
          · rw [hsame] at htells ⊢
            exact Phase.nil.cons htells
        next hnew =>
          -- once it has settled the image would be empty or not new
          have hsmall : done ≠ top := by
            rintro rfl
            rcases hR with hnone | hsame
            · exact hsome (hnext.isEmpty_iff.2 hnone)
            · exact hnew (hnext.eq (hset.congr fun b => (hsame b).symm))
          refine M.imp (ih hnext hlt (by omega) (by omega)) ?_
          rintro first l ⟨hshows, hphase, hcount, hle, htop⟩
          refine ⟨hshows, hphase.cons htells, ?_, hle, htop⟩
          rw [hcount, List.singleton_append, List.length_cons]
          omega

omit hR in
/-- After `done` rounds the set shows what at most `done` steps past the least count reach. If
`left` steps past it gather all that one more gathers, there are no more than `left + 1` rounds. -/
theorem always_grow {extra : Option Nat} {left : Nat}
    (hleft : ∀ b, Gathers R P min (left + 1) b → Gathers R P min left b)
    (hset : V.Shows set (Gathers R P min done)) (hextra : ∀ e ∈ extra, done ≤ e)
    (hdone : done ≤ left) (hroom : left + 1 ≤ room + done) :
    M.always (grow step min extra room done set) fun r l =>
      V.Shows r.reached (fun b => ∃ j, (∀ e ∈ extra, j ≤ e) ∧ Reaches R P (min + j) b) ∧
        r.cut = false ∧ Phase V R P min (min + done) set r.reached l ∧
        r.applications = done + l.length ∧ r.applications ≤ left + 1 := by
  induction room generalizing done set with
  | zero => omega
  | succ room ih =>
    unfold grow
    split
    next hused =>
      obtain ⟨e, he, hle⟩ := (Option.any_eq_true _ _).1 hused
      refine M.pure ⟨hset.congr fun b => exists_congr fun j => and_congr_left fun _ => ?_, rfl,
        .nil, rfl, Nat.le_succ_of_le hdone⟩
      refine ⟨fun hj e' he' => ?_, fun hj => Nat.le_trans (hj e he) (of_decide_eq_true hle)⟩
      exact Nat.le_trans hj (hextra e' he')
    next hunused =>
      refine M.bind (hstep set _ _ hset) ?_
      rintro next _ ⟨hnext, rfl⟩
      have hjoined : V.Shows (JoinSet.join set next) (Gathers R P min (done + 1)) :=
        (hset.join hnext).congr fun b => gathers_succ.symm
      have htells : Tells V R P min (min + done + 1, JoinSet.join set next) :=
        tells_grown hjoined
      have hview : view set next (min + (done + 1)) min = JoinSet.join set next :=
        if_neg (by omega)
      rw [hview]
      simp only
      split
      next hsame =>
        -- the set holds its own image, so it holds whatever further steps reach
        rw [hsame] at hjoined htells ⊢
        have hclosed : ∀ b, Gathers R P min (done + 1) b → Gathers R P min done b :=
          fun b hb => (hset.2 b).1 ((hjoined.2 b).2 hb)
        refine M.pure ⟨hset.congr fun b => ⟨?_, ?_⟩, rfl, Phase.nil.cons htells, rfl,
          Nat.succ_le_succ hdone⟩
        · rintro ⟨j, hj, hb⟩
          exact ⟨j, fun e he => Nat.le_trans hj (hextra e he), hb⟩
        · rintro ⟨j, -, hb⟩
          exact gathers_of_reaches hclosed hb
      next hnew =>
        have hsmall : done ≠ left := by
          rintro rfl
          -- what one more step reaches is there already, so the join adds nothing
          exact hnew (hjoined.eq (hset.congr fun b =>
            ⟨fun hb => gathers_succ.2 (Or.inl hb), hleft b⟩))
        have hextra' : ∀ e ∈ extra, done + 1 ≤ e := by
          intro e he
          have hlt : ¬e ≤ done := fun hle =>
            hunused ((Option.any_eq_true _ _).2 ⟨e, he, decide_eq_true hle⟩)
          omega
        refine M.imp (ih hjoined hextra' (by omega) (by omega)) ?_
        rintro r l ⟨hshows, huncut, hphase, hcount, hle⟩
        refine ⟨hshows, huncut, hphase.cons htells, ?_, hle⟩
        rw [hcount, List.singleton_append, List.length_cons]
        omega

/-! ### The whole -/

omit hR hstep in
/-- What becomes of a repetition: it reaches what a permitted number of steps reaches, it is not
cut, and it reports each of its at most `top + 2` applications. -/
structure Course (V : View σ α) (R : α → α → Prop) (P : α → Prop) (min : Nat) (max : Option Nat)
    (top : Nat) (input : σ) (r : Repetition σ) (l : List (Nat × σ)) : Prop where
  shows : V.Shows r.reached fun b => ∃ k, Permits min max k ∧ Reaches R P k b
  uncut : r.cut = false
  applications_eq : r.applications = l.length
  applications_le : r.applications ≤ top + 2
  reports : Reports V R P min input r.reached l

/-- **A repetition reaches what a permitted number of steps reaches**, and no phase of it is cut, if
both have room to get past the point from which on what is reached has settled. -/
theorem always_run {max : Option Nat} {input : σ} (hinput : V.Shows input P)
    (hceiling : top + 1 ≤ ceiling) :
    M.always (run input min max ceiling step) (Course V R P min max top input) := by
  have hexact := always_exact M hR hstep (hinput.congr fun b => reaches_zero.symm)
    (Nat.zero_le min) (Nat.zero_le top) (show top + 1 ≤ ceiling + 0 from hceiling)
  unfold run
  refine M.bind hexact ?_
  rintro (⟨last, n⟩ | ⟨last, n, cut⟩) l₁ ⟨hshows, hphase, hcount, hle, htop⟩
  · obtain ⟨hlast, hnone⟩ := hshows
    have hcount : n = 0 + l₁.length := hcount
    have htop : n ≤ top + 1 := htop
    refine M.pure ⟨hlast.congr fun b => iff_of_false id ?_, rfl, ?_, Nat.le_succ_of_le htop, ?_⟩
    · rintro ⟨k, hk, hb⟩
      exact not_reaches_of_le hnone hk.1 b hb
    · rw [List.append_nil, hcount, Nat.zero_add]
    · exact hphase.append .nil (Nat.le_refl _) fun h => h ▸ rfl
  · obtain ⟨hlast, rfl, hleast⟩ := hshows
    have hcount : n = 0 + l₁.length := hcount
    have hle : n ≤ min := hle
    have htop : n ≤ top + 1 := htop
    -- so many rounds past the least count gather all that any number of them gathers
    have hleft : ∃ left, left ≤ top ∧ n + (left + 1) ≤ top + 2 ∧
        ∀ b, Reaches R P (min + left + 1) b → Reaches R P (min + left) b := by
      rcases hleast with rfl | ⟨-, hstays⟩
      · exact ⟨top - n, by omega, by omega, fun b hb => hR.pred (by omega) hb⟩
      · exact ⟨0, by omega, by omega, fun b hb => (hstays b).1 hb⟩
    obtain ⟨left, hlt, htotal, hleft⟩ := hleft
    have hgrow : M.always (grow step min (max.map (· - min)) ceiling 0 last) _ :=
      always_grow M hstep (gathers_of_pred hleft) (hlast.congr fun b => gathers_zero.symm)
        (fun _ _ => Nat.zero_le _) (Nat.zero_le _) (show left + 1 ≤ ceiling + 0 by omega)
    refine M.bind hgrow ?_
    rintro r l₂ ⟨hshows, huncut, hphase₂, hcount₂, hle₂⟩
    have hnil : l₁ = [] → min = 0 := by
      rintro rfl
      rcases hleast with rfl | ⟨hpos, -⟩
      · exact hcount
      · exact absurd hcount (Nat.ne_of_gt hpos)
    refine M.pure ⟨hshows.congr fun b => ⟨?_, ?_⟩, huncut, ?_, ?_, ?_⟩
    · rintro ⟨j, hj, hb⟩
      exact ⟨min + j, permits_iff.2 ⟨j, rfl, hj⟩, hb⟩
    · rintro ⟨k, hk, hb⟩
      obtain ⟨j, rfl, hj⟩ := permits_iff.1 hk
      exact ⟨j, hj, hb⟩
    · rw [List.append_nil, List.length_append]
      simp only
      omega
    · simp only
      omega
    · rw [List.append_nil]
      exact hphase.append hphase₂ (by omega) hnil

end Repetition

end PatternSweep
