import PatternSweep.Proofs.Masks

/-!
# The relations that sweeps realise

A sweep turns sets into sets, and what it means is a relation on their elements:
`Realises s V W f R` says that `f` turns every set into the image of its elements under `R`, if `V`
sees what goes in and `W` what comes out. What realises a relation can be put together as patterns
are: one after the other (`Realises.inTurn`), side by side (`Realises.among`) and again and again
(`Realises.repetition`). How often the last of these applies its element, and that it is not cut,
its rounds tell (`Realises.rounds`).
-/

namespace PatternSweep

/-- `f` turns every set of the shape that `V` sees into the image of its elements under `R`, which
has the shape that `W` sees. -/
def Realises {σ α : Type} [JoinSet σ] (s : Subject) (V W : View σ α) (f : σ → Run σ)
    (R : α → α → Prop) : Prop :=
  ∀ input P, V.Shows input P → Yields s (f input) (W.Shows · (Image R P))

/-- The rounds of a repetition: what `Sweep.repetition` reaches, how often it applies `element`, and
whether it is cut. -/
def Sweep.rounds {σ : Type} [Recordable σ] [JoinSet σ] [DecidableEq σ] (s : Sweep) (node : Pattern)
    (input : σ) (min : Nat) (max : Option Nat) (ceiling : Nat) (element : σ → Run σ) :
    Run (Repetition σ) :=
  Repetition.run input min max ceiling fun set number => do
    let next ← element set
    s.record node fun _ => .round number (Recordable.members (Repetition.view set next number min))
    return next

theorem Sweep.repetition_eq {σ : Type} [Recordable σ] [JoinSet σ] [DecidableEq σ] {s : Sweep}
    {node : Pattern} {input : σ} {min : Nat} {max : Option Nat} {ceiling : Nat}
    {element : σ → Run σ} : s.repetition node input min max ceiling element =
      do return (← s.rounds node input min max ceiling element).reached := rfl

namespace Realises

variable {σ α : Type} [JoinSet σ] {s : Subject} {U V W : View σ α} {f g : σ → Run σ}
  {R S : α → α → Prop}

theorem congr (h : Realises s V W f R) (hRS : ∀ a b, R a b ↔ S a b) : Realises s V W f S := by
  obtain rfl : R = S := funext fun a => funext fun b => propext (hRS a b)
  exact h

theorem pure : Realises s V V pure (· = ·) := fun _ _ hinput =>
  Yields.pure (hinput.congr fun b => ⟨fun hb => ⟨b, hb, rfl⟩, fun ⟨_, ha, hab⟩ => hab ▸ ha⟩)

/-- What comes out may be brought into another shape. -/
theorem map {g : σ → σ} (h : Realises s U V f R)
    (hg : ∀ set P, V.Shows set P → W.Shows (g set) P) :
    Realises s U W (fun input => do return g (← f input)) R := by
  intro input P hinput
  exact (h input P hinput).bind fun out hout => Yields.pure (hg out _ hout)

/-- One computation after the other composes the relations. -/
theorem bind (hf : Realises s U V f R) (hg : Realises s V W g S) :
    Realises s U W (fun input => f input >>= g) fun a c => ∃ b, R a b ∧ S b c := by
  intro input P hinput
  refine (hf input P hinput).bind fun mid hmid => (hg mid _ hmid).imp fun out hout => ?_
  refine hout.congr fun c => ⟨?_, ?_⟩
  · intro hx
    obtain ⟨b, ⟨a, ha, hab⟩, hbc⟩ := hx
    exact ⟨a, ha, b, hab, hbc⟩
  · rintro ⟨a, ha, b, hab, hbc⟩
    exact ⟨b, ⟨a, ha, hab⟩, hbc⟩

/-- Joining what one computation makes of a set and going on unites the relations. -/
theorem join {U : α → α → Prop} {input output : σ} {P Q : α → Prop} {go : σ → Run σ}
    (hf : Realises s V W f R) (hU : ∀ a b, U a b ↔ R a b ∨ S a b)
    (hinput : V.Shows input P) (houtput : W.Shows output Q)
    (hgo : ∀ joined Q, W.Shows joined Q →
      Yields s (go joined) (W.Shows · fun b => Q b ∨ Image S P b)) :
    Yields s (f input >>= fun reached => go (JoinSet.join output reached))
      (W.Shows · fun b => Q b ∨ Image U P b) := by
  refine (hf input P hinput).bind fun reached hreached => ?_
  refine (hgo _ _ (houtput.join hreached)).imp fun out hout => hout.congr fun b => ?_
  rw [or_assoc]
  refine or_congr_right ⟨?_, ?_⟩
  · intro hx
    rcases hx with ⟨a, ha, hab⟩ | ⟨a, ha, hab⟩
    · exact ⟨a, ha, (hU a b).2 (Or.inl hab)⟩
    · exact ⟨a, ha, (hU a b).2 (Or.inr hab)⟩
  · rintro ⟨a, ha, hab⟩
    cases (hU a b).1 hab with
    | inl hab => exact Or.inl ⟨a, ha, hab⟩
    | inr hab => exact Or.inr ⟨a, ha, hab⟩

/-! ### Lists of patterns -/

section

variable {ι : Type} {f : ι → σ → Run σ} {R S : ι → α → α → Prop} {ps : List ι}

/-- Going through a list one after the other composes the relations of its members. -/
theorem inTurn (go : List ι → σ → Run σ) (T : List ι → α → α → Prop)
    (hnil : ∀ input, go [] input = Pure.pure input)
    (hcons : ∀ p ps input, go (p :: ps) input = f p input >>= go ps)
    (hT : ∀ a b, a = b ↔ T [] a b)
    (hTcons : ∀ p ps a c, (∃ b, R p a b ∧ T ps b c) ↔ T (p :: ps) a c)
    (h : ∀ p ∈ ps, Realises s V V (f p) (R p)) : Realises s V V (go ps) (T ps) := by
  induction ps with
  | nil =>
    obtain hgo : go [] = Pure.pure := funext hnil
    rw [hgo]
    exact Realises.pure.congr hT
  | cons p ps ih =>
    obtain hgo : go (p :: ps) = fun input => f p input >>= go ps := funext (hcons p ps)
    rw [hgo]
    refine ((h p (by simp)).bind (ih fun q hq => ?_)).congr (hTcons p ps)
    exact h q (List.mem_cons_of_mem _ hq)

/-- Joining what each member of a list makes of the same set unites their relations. -/
theorem among (go : List ι → σ → σ → Run σ) (T : List ι → α → α → Prop)
    (hnil : ∀ input output, go [] input output = Pure.pure output)
    (hcons : ∀ p ps input output, go (p :: ps) input output =
      f p input >>= fun reached => go ps input (JoinSet.join output reached))
    (hT : ∀ a b, ¬T [] a b) (hTcons : ∀ p ps a b, T (p :: ps) a b ↔ R p a b ∨ T ps a b)
    (h : ∀ p ∈ ps, Realises s V W (f p) (R p)) {input output : σ} {P Q : α → Prop}
    (hinput : V.Shows input P) (houtput : W.Shows output Q) :
    Yields s (go ps input output) (W.Shows · fun b => Q b ∨ Image (T ps) P b) := by
  induction ps generalizing output Q with
  | nil =>
    rw [hnil]
    refine Yields.pure (houtput.congr fun b => (or_iff_left ?_).symm)
    rintro ⟨a, -, hab⟩
    exact hT a b hab
  | cons p ps ih =>
    rw [hcons]
    exact (h p (by simp)).join (hTcons p ps) hinput houtput fun joined Q hjoined =>
      ih (fun q hq => h q (List.mem_cons_of_mem _ hq)) hjoined

end

/-! ### The nodes of a sweep -/

variable [Recordable σ] {w : Sweep} {node : Pattern}

/-- If what `R` reaches settles, the rounds of a repetition show what a permitted number of steps
reaches, they are not cut, and there are not many of them. -/
theorem rounds [DecidableEq σ] {top min ceiling : Nat} {max : Option Nat} {input : σ} {P : α → Prop}
    (h : Realises w.subject V V f R) (hR : Settles R P top) (hinput : V.Shows input P)
    (hceiling : top + 1 ≤ ceiling) :
    Yields w.subject (w.rounds node input min max ceiling f) fun r =>
      V.Shows r.reached (fun b => ∃ k, Permits min max k ∧ Reaches R P k b) ∧ r.cut = false ∧
        r.applications ≤ top + 2 := by
  have hround : ∀ set Q number, V.Shows set Q → Yields w.subject (do
      let next ← f set
      w.record node fun _ =>
        .round number (Recordable.members (Repetition.view set next number min))
      return next) fun next => ∃ l, V.Shows next (Image R Q) ∧
        l = [(number, Repetition.view set next number min)] := by
    intro set Q number hset
    -- what is recorded does not bear on the result
    refine (h set Q hset).bind fun next hnext => Sweep.yields_record.bind fun _ _ => ?_
    exact Yields.pure ⟨_, hnext, rfl⟩
  have hrun : Yields w.subject (w.rounds node input min max ceiling f)
      fun r => ∃ l, Repetition.Course V R P min max top input r l :=
    Repetition.always_run (sweepModality w.subject (Nat × σ)) hR hround hinput hceiling
  exact hrun.imp fun r ⟨_, hr⟩ => ⟨hr.shows, hr.uncut, hr.applications_le⟩

/-- A repetition realises what a permitted number of steps of its element does. -/
theorem repetition [DecidableEq σ] {rank : α → Nat} {bound min ceiling : Nat} {max : Option Nat}
    (h : Realises w.subject V V f R) (hR : Climbs rank bound R)
    (hV : ∀ set a, V.Dom set → V.Mem set a → rank a ≤ bound) (hceiling : bound + 2 ≤ ceiling) :
    Realises w.subject V V (fun input => w.repetition node input min max ceiling f)
      fun a b => ∃ k, Permits min max k ∧ Iter R k a b := by
  intro input P hinput
  have hP : ∀ a, P a → rank a ≤ bound := fun a ha => hV input a hinput.1 ((hinput.2 a).2 ha)
  simp only [Sweep.repetition_eq]
  refine (h.rounds (hR.settles hP) hinput hceiling).bind fun r hr => Yields.pure ?_
  refine hr.1.congr fun b => ⟨?_, ?_⟩
  · rintro ⟨k, hk, a, ha, hab⟩
    exact ⟨a, ha, k, hk, hab⟩
  · rintro ⟨a, ha, k, hk, hab⟩
    exact ⟨k, hk, a, ha, hab⟩

end Realises

end PatternSweep
