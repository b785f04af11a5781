import PatternSweep.Proofs.JsonLibrary

/-!
# The codecs of this library

The functions by which this library writes patterns as JSON and reads them keep the promises of a
library for JSON (`JsonLibrary.own_conforms`). They read in as much room as a value needs. What is
read in some room is read in more room as well (`Pattern.decode?_mono`), so a part, which is read in
the room that is left where it lies, is read there as it is by itself.
-/

namespace PatternSweep

/-! ### Reading in more room -/

/-- What `f` makes of the elements of a list, `g` makes of them too. -/
theorem mapM_mono {α β : Type} {f g : α → Option β} {as : List α} {bs : List β}
    (h : as.mapM f = some bs) (hfg : ∀ a ∈ as, ∀ b, f a = some b → g a = some b) :
    as.mapM g = some bs := by
  induction as generalizing bs with
  | nil => exact h
  | cons a as ih =>
    obtain ⟨ha, hrest⟩ := List.forall_mem_cons.1 hfg
    rw [List.mapM_cons] at h ⊢
    obtain ⟨b, hb, h⟩ := Option.bind_eq_some_iff.1 h
    obtain ⟨cs, hcs, h⟩ := Option.bind_eq_some_iff.1 h
    rw [ha b hb, ih hcs hrest]
    exact h

theorem eq_of_forall₂_pair {α : Type 1} {β : Type} {R : α → β → Prop} {a b : α} {l : List β}
    (h : List.Forall₂ R [a, b] l) : ∃ x y, l = [x, y] ∧ R a x ∧ R b y := by
  simpa [List.forall₂_cons_left_iff, and_assoc, and_left_comm, and_comm] using h

theorem eq_of_forall₂_triple {α : Type 1} {β : Type} {R : α → β → Prop} {a b c : α} {l : List β}
    (h : List.Forall₂ R [a, b, c] l) : ∃ x y z, l = [x, y, z] ∧ R a x ∧ R b y ∧ R c z := by
  obtain ⟨x, l, hx, hl, rfl⟩ := List.forall₂_cons_left_iff.1 h
  obtain ⟨y, z, rfl, hy, hz⟩ := eq_of_forall₂_pair hl
  exact ⟨x, y, z, rfl, hx, hy, hz⟩

theorem Shorthand.ofJson?_mono {room room' : Nat} {j : Json} {s : Shorthand}
    (h : ofJson? room j = some s) (hle : room ≤ room') : ofJson? room' j = some s := by
  unfold ofJson? at h
  split at h
  next => exact h
  next room name =>
    obtain ⟨room', rfl⟩ := Nat.exists_eq_add_of_le' (Nat.le_trans (Nat.le_add_left 1 room) hle)
    exact h
  next => cases h

theorem ClassItem.ofJson?_mono {room room' : Nat} {j : Json} {i : ClassItem}
    (h : ofJson? room j = some i) (hle : room ≤ room') : ofJson? room' j = some i := by
  unfold ofJson? at h
  split at h
  next room j =>
    obtain ⟨room', rfl⟩ := Nat.exists_eq_add_of_le' (Nat.le_trans (Nat.le_add_left 1 room) hle)
    exact h
  next room j k =>
    obtain ⟨room', rfl⟩ := Nat.exists_eq_add_of_le' (Nat.le_trans (Nat.le_add_left 2 room) hle)
    exact h
  next room j =>
    obtain ⟨room', rfl⟩ := Nat.exists_eq_add_of_le' (Nat.le_trans (Nat.le_add_left 1 room) hle)
    obtain ⟨s, hs, rfl⟩ := Option.map_eq_some_iff.1 h
    rw [ofJson?, Shorthand.ofJson?_mono hs (Nat.le_of_succ_le_succ hle)]
    rfl
  next => cases h

theorem exists_add_of_le {k room room' : Nat} (h : room + k ≤ room') :
    ∃ r, room' = r + k ∧ room ≤ r :=
  ⟨room' - k, by omega, by omega⟩

theorem CharClass.ofJson?_mono {room room' : Nat} {j : Json} {k : CharClass}
    (h : ofJson? room j = some k) (hle : room ≤ room') : ofJson? room' j = some k := by
  unfold ofJson? at h
  split at h
  next room =>
    obtain ⟨room', rfl, hroom⟩ := exists_add_of_le (k := 2) hle
    obtain ⟨fs, hfs, h⟩ := Option.bind_eq_some_iff.1 h
    split at h
    next items negated =>
      obtain ⟨is, his, h⟩ := Option.bind_eq_some_iff.1 h
      have his := mapM_mono his fun j _ i hi => ClassItem.ofJson?_mono hi hroom
      simpa [ofJson?, hfs, his] using h
    next => cases h
  next => cases h

section

variable {read read' : Json → Option Pattern} {p : Pattern}

theorem Pattern.several_mono {f : List Pattern → Pattern} {items : List Json}
    (h : f <$> items.mapM read = some p) (hread : ∀ j q, read j = some q → read' j = some q) :
    f <$> items.mapM read' = some p := by
  obtain ⟨ps, hps, rfl⟩ := Option.map_eq_some_iff.1 h
  rw [mapM_mono hps fun j _ q hq => hread j q hq]
  rfl

theorem Pattern.ahead_mono {positive : Bool} {c b : Json}
    (h : (do return .ahead positive (← read c) (← read b)) = some p)
    (hread : ∀ j q, read j = some q → read' j = some q) :
    (do return .ahead positive (← read' c) (← read' b)) = some p := by
  obtain ⟨condition, hc, h⟩ := Option.bind_eq_some_iff.1 h
  obtain ⟨body, hb, h⟩ := Option.bind_eq_some_iff.1 h
  rw [hread c condition hc, hread b body hb]
  exact h

end

theorem Pattern.decode?_mono {listed : Bool} {room room' : Nat} {j : Json} {p : Pattern}
    (h : decode? listed room j = some p) (hle : room ≤ room') :
    decode? listed room' j = some p := by
  induction room using Nat.strongRecOn generalizing room' j p with
  | _ room ih =>
  unfold decode? at h
  split at h
  next => rwa [decode?]
  next =>
    obtain ⟨room', rfl, hroom⟩ := exists_add_of_le (k := 1) hle
    rwa [decode?]
  next =>
    obtain ⟨room', rfl, hroom⟩ := exists_add_of_le (k := 1) hle
    rwa [decode?]
  next =>
    obtain ⟨room', rfl, hroom⟩ := exists_add_of_le (k := 1) hle
    obtain ⟨k, hk, rfl⟩ := Option.map_eq_some_iff.1 h
    rw [decode?, CharClass.ofJson?_mono hk hroom]
    rfl
  next =>
    obtain ⟨room', rfl, hroom⟩ := exists_add_of_le (k := 2) hle
    rw [decode?]
    exact several_mono h fun j q hq => ih _ (by omega) hq hroom
  next =>
    obtain ⟨room', rfl, hroom⟩ := exists_add_of_le (k := 2) hle
    rw [decode?]
    exact several_mono h fun j q hq => ih _ (by omega) hq hroom
  next =>
    obtain ⟨room', rfl, hroom⟩ := exists_add_of_le (k := 2) hle
    obtain ⟨fs, hfs, h⟩ := Option.bind_eq_some_iff.1 h
    split at h
    next =>
      obtain ⟨e, he, h⟩ := Option.bind_eq_some_iff.1 h
      simpa [decode?, hfs, ih _ (by omega) he hroom] using h
    next => cases h
  next =>
    obtain ⟨room', rfl, hroom⟩ := exists_add_of_le (k := 2) hle
    obtain ⟨fs, hfs, h⟩ := Option.bind_eq_some_iff.1 h
    rw [decode?, hfs]
    split at h
    next => exact ahead_mono h fun j q hq => ih _ (by omega) hq hroom
    next => cases h
  next =>
    obtain ⟨room', rfl, hroom⟩ := exists_add_of_le (k := 2) hle
    obtain ⟨fs, hfs, h⟩ := Option.bind_eq_some_iff.1 h
    rw [decode?, hfs]
    split at h
    next => exact ahead_mono h fun j q hq => ih _ (by omega) hq hroom
    next => cases h
  next => cases h

/-! ### Values of JSON and their parts -/

namespace Json

theorem nesting_arr (items : List Json) : (arr items).nesting = itemsNesting items + 1 :=
  Nat.add_comm _ _

theorem nesting_obj (members : List (String × Json)) :
    (obj members).nesting = membersNesting members + 1 :=
  Nat.add_comm _ _

theorem nesting_single (key : String) (j : Json) : (obj [(key, j)]).nesting = j.nesting + 1 := by
  rw [nesting_obj, membersNesting, membersNesting, Nat.max_zero]

theorem nesting_le_of_mem {items : List Json} {j : Json} (h : j ∈ items) :
    j.nesting ≤ itemsNesting items := by
  induction items with
  | nil => cases h
  | cons k items ih =>
    rw [itemsNesting]
    rcases List.mem_cons.1 h with rfl | h
    · exact Nat.le_max_left _ _
    · exact Nat.le_trans (ih h) (Nat.le_max_right _ _)

theorem nesting_le_of_mem_members {members : List (String × Json)} {key : String} {j : Json}
    (h : (key, j) ∈ members) : j.nesting ≤ membersNesting members := by
  induction members with
  | nil => cases h
  | cons m members ih =>
    rw [membersNesting]
    rcases List.mem_cons.1 h with rfl | h
    · exact Nat.le_max_left _ _
    · exact Nat.le_trans (ih h) (Nat.le_max_right _ _)

end Json

theorem Pattern.toJsons_eq_map (ps : List Pattern) : toJsons ps = ps.map toJson := by
  induction ps with
  | nil => rfl
  | cons p ps ih => rw [toJsons, ih, List.map_cons]

namespace JsonLibrary

/-! ### The functions -/

/-- The functions of this library. -/
def own : JsonLibrary where
  bool := ⟨.bool, fun | .bool b => some b | _ => none⟩
  char := ⟨.ofChar, Json.char?⟩
  count := ⟨.nat, fun | .nat n => some n | _ => none⟩
  option c :=
    ⟨fun | none => .null | some a => c.encode a,
      fun | .null => some none | j => some <$> c.decode j⟩
  list c := ⟨fun as => .arr (as.map c.encode), fun | .arr js => js.mapM c.decode | _ => none⟩
  shorthand := ⟨fun s => .str s.name, fun j => Shorthand.ofJson? j.nesting j⟩
  classItem := ⟨ClassItem.toJson, fun j => ClassItem.ofJson? j.nesting j⟩
  charClass := ⟨CharClass.toJson, fun j => CharClass.ofJson? j.nesting j⟩
  pattern := ⟨Pattern.toJson, fun j => Pattern.decode? true j.nesting j⟩
  toText := Pattern.writeText
  ofText? := Pattern.readText?

variable {j k : Json}

theorem own_bool {b : Bool} (h : own.bool.decode j = some b) : j = .bool b := by
  cases j with
  | bool c => rw [Option.some.inj h]
  | null | nat | arr | other | str | obj => cases h

theorem own_count {n : Nat} (h : own.count.decode j = some n) : j = .nat n := by
  cases j with
  | nat m => rw [Option.some.inj h]
  | null | bool | arr | other | str | obj => cases h

theorem own_max {max : Option Nat} (h : (own.option own.count).decode j = some max) :
    Json.max? (some j) = some max := by
  cases j with
  | null | nat => exact h
  | bool | arr | other | str | obj => cases h

theorem own_list {α : Type} {c : Codec α} {as : List α} (h : (own.list c).decode j = some as) :
    ∃ js, j = .arr js ∧ js.mapM c.decode = some as := by
  cases j with
  | arr js => exact ⟨js, rfl, h⟩
  | null | bool | nat | other | str | obj => cases h

/-- The items of an array are read as patterns in the room that is left in it. -/
theorem own_parts {ps : List Pattern} (h : (own.list own.pattern).decode j = some ps) :
    ∃ js, j = .arr js ∧ js.mapM (Pattern.decode? true (Json.itemsNesting js)) = some ps := by
  obtain ⟨js, rfl, hjs⟩ := own_list h
  exact ⟨js, rfl, mapM_mono hjs fun j hj p hp =>
    Pattern.decode?_mono hp (Json.nesting_le_of_mem hj)⟩

/-! ### The promises -/

theorem own_shorthand (s : Shorthand) : Variant.Tagged own.shorthand (.unit s.name s) := by
  refine .unit rfl ?_
  show Shorthand.ofName? s.name = some s
  cases s <;> rfl

theorem own_classItem : ∀ v ∈ ClassItem.variants own, v.Tagged own.classItem := by
  have hchar : ∀ (j : Json) (c : Char), (Contents.single (.of own.char id)).Reads j c →
      own.classItem.decode (.obj [("Char", j)]) = some (.char c) := by
    rintro j c (h | _ | _)
    have h : j.char? = some c := h
    show ClassItem.ofJson? (Json.obj _).nesting _ = _
    rw [Json.nesting_single, ClassItem.ofJson?, h]
    rfl
  have hrange : ∀ (j : Json) (b : Char × Char),
      (Contents.tuple [.of own.char Prod.fst, .of own.char Prod.snd]).Reads j b →
        own.classItem.decode (.obj [("Range", j)]) = some (.range b.1 b.2) := by
    rintro j b (_ | h | _)
    obtain ⟨first, last, rfl, hfirst, hlast⟩ := eq_of_forall₂_pair h
    have hfirst : first.char? = some b.1 := hfirst
    have hlast : last.char? = some b.2 := hlast
    show ClassItem.ofJson? (Json.obj _).nesting _ = _
    rw [Json.nesting_single, Json.nesting_arr, ClassItem.ofJson?, hfirst, hlast]
    rfl
  have hshorthand : ∀ (j : Json) (s : Shorthand),
      (Contents.single (.of own.shorthand id)).Reads j s →
        own.classItem.decode (.obj [("Shorthand", j)]) = some (.shorthand s) := by
    rintro j s (h | _ | _)
    have h : Shorthand.ofJson? j.nesting j = some s := h
    show ClassItem.ofJson? (Json.obj _).nesting _ = _
    rw [Json.nesting_single, ClassItem.ofJson?, h]
    rfl
  simp only [ClassItem.variants, List.forall_mem_cons]
  exact ⟨.holding (fun _ => rfl) hchar, .holding (fun _ => rfl) hrange,
    .holding (fun _ => rfl) hshorthand, List.forall_mem_nil _⟩

theorem own_charClass : own.charClass.Holds (CharClass.contents own) where
  encode _ := rfl
  decode := by
    rintro j k (_ | _ | h)
    obtain ⟨items, negated, rfl, hitems, hnegated⟩ := eq_of_forall₂_pair h
    obtain ⟨js, rfl, hitems⟩ := own_list hitems
    obtain rfl := own_bool hnegated
    have hroom : (Json.obj [("items", .arr js), ("negated", .bool k.negated)]).nesting =
        Json.itemsNesting js + 2 := by
      simp only [Json.nesting, Json.membersNesting]
      omega
    have hitems : js.mapM (ClassItem.ofJson? (Json.itemsNesting js)) = some k.items :=
      mapM_mono hitems fun j hj i hi => ClassItem.ofJson?_mono hi (Json.nesting_le_of_mem hj)
    show CharClass.ofJson? (Json.obj [("items", .arr js), ("negated", .bool k.negated)]).nesting
      (.obj [("items", .arr js), ("negated", .bool k.negated)]) = some k
    rw [hroom, CharClass.ofJson?]
    simp [Json.fields?, Json.named, hitems]

/-- A node whose parts are the items of an array. -/
theorem own_several {name : String} {f : List Pattern → Pattern}
    (hencode : ∀ ps, (f ps).toJson = .obj [(name, .arr (Pattern.toJsons ps))])
    (hdecode : ∀ room js, Pattern.decode? true (room + 2) (.obj [(name, .arr js)]) =
      f <$> js.mapM (Pattern.decode? true room)) :
    Variant.Tagged own.pattern
      (.holding name (.single (.of (own.list own.pattern) id)) f) := by
  refine .holding (fun ps => ?_) ?_
  · show (f ps).toJson = _
    rw [hencode, Pattern.toJsons_eq_map]
    rfl
  · rintro j ps (h | _ | _)
    obtain ⟨js, rfl, hjs⟩ := own_parts h
    show Pattern.decode? true (Json.obj _).nesting _ = _
    rw [Json.nesting_single, Json.nesting_arr, hdecode, hjs]
    rfl

/-- A lookahead. -/
theorem own_ahead {name : String} {positive : Bool}
    (hencode : ∀ c p : Pattern, (Pattern.ahead positive c p).toJson =
      .obj [(name, .obj [("condition", c.toJson), ("body", p.toJson)])])
    (hdecode : ∀ room c p condition body, Pattern.decode? true room condition = some c →
      Pattern.decode? true room body = some p →
        Pattern.decode? true (room + 2)
          (.obj [(name, .obj [("condition", condition), ("body", body)])]) =
            some (.ahead positive c p)) :
    Variant.Tagged own.pattern
      (.holding name (Pattern.aheadContents own) fun b => .ahead positive b.1 b.2) := by
  refine .holding (fun b => hencode b.1 b.2) ?_
  rintro j b (_ | _ | h)
  obtain ⟨condition, body, rfl, hcondition, hbody⟩ := eq_of_forall₂_pair h
  -- both are read in the room that is left in the object
  have hfirst : ("condition", condition) ∈ [("condition", condition), ("body", body)] :=
    List.mem_cons_self
  have hsecond : ("body", body) ∈ [("condition", condition), ("body", body)] :=
    List.mem_cons_of_mem _ List.mem_cons_self
  show Pattern.decode? true (Json.obj _).nesting _ = _
  rw [Json.nesting_single, Json.nesting_obj]
  exact hdecode _ b.1 b.2 condition body
    (Pattern.decode?_mono hcondition (Json.nesting_le_of_mem_members hfirst))
    (Pattern.decode?_mono hbody (Json.nesting_le_of_mem_members hsecond))

theorem own_pattern : ∀ v ∈ Pattern.variants own, v.Tagged own.pattern := by
  have hliteral : ∀ (j : Json) (c : Char), (Contents.single (.of own.char id)).Reads j c →
      own.pattern.decode (.obj [("Literal", j)]) = some (.lit c) := by
    rintro j c (h | _ | _)
    have h : j.char? = some c := h
    show Pattern.decode? true (Json.obj _).nesting _ = _
    rw [Json.nesting_single, Pattern.decode?, h]
    rfl
  have hany : own.pattern.decode (.str "AnyChar") = some (.atom .any) := by
    show Pattern.decode? true _ _ = _
    rw [Pattern.decode?]
  have hclass : ∀ (j : Json) (k : CharClass), (Contents.single (.of own.charClass id)).Reads j k →
      own.pattern.decode (.obj [("CharacterClass", j)]) = some (.atom (.oneOf k)) := by
    rintro j k (h | _ | _)
    have h : CharClass.ofJson? j.nesting j = some k := h
    show Pattern.decode? true (Json.obj _).nesting _ = _
    rw [Json.nesting_single, Pattern.decode?, h]
    rfl
  have hrepeated : ∀ (j : Json) (b : Pattern × Nat × Option Nat),
      (Pattern.repeatedContents own).Reads j b →
        own.pattern.decode (.obj [("Repeat", j)]) = some (.repeated b.1 b.2.1 b.2.2) := by
    rintro j b (_ | _ | h)
    obtain ⟨node, min, max, rfl, hnode, hmin, hmax⟩ := eq_of_forall₂_triple h
    obtain rfl := own_count hmin
    have hmax : Json.max? (some max) = some b.2.2 := own_max hmax
    have hnode : Pattern.decode? true
        (Json.membersNesting [("node", node), ("min", .nat b.2.1), ("max", max)]) node =
          some b.1 :=
      Pattern.decode?_mono hnode (Json.nesting_le_of_mem_members List.mem_cons_self)
    show Pattern.decode? true
      (Json.obj [("Repeat", .obj [("node", node), ("min", .nat b.2.1), ("max", max)])]).nesting
      (.obj [("Repeat", .obj [("node", node), ("min", .nat b.2.1), ("max", max)])]) = _
    rw [Json.nesting_single, Json.nesting_obj, Pattern.decode?]
    simp [Json.fields?, Json.named, hnode, hmax]
  have hencode : ∀ b : Pattern × Nat × Option Nat, own.pattern.encode (.repeated b.1 b.2.1 b.2.2) =
      .obj [("Repeat", (Pattern.repeatedContents own).encode b)] := by
    rintro ⟨e, min, max⟩
    cases max <;> rfl
  simp only [Pattern.variants, List.forall_mem_cons]
  exact ⟨.holding (fun _ => rfl) hliteral, .unit rfl hany, .holding (fun _ => rfl) hclass,
    own_several (fun ps => by rw [Pattern.toJson]) (fun room js => by rw [Pattern.decode?]),
    own_several (fun ps => by rw [Pattern.toJson]) (fun room js => by rw [Pattern.decode?]),
    .holding hencode hrepeated,
    own_ahead (fun c p => by rw [Pattern.toJson])
      (fun room c p condition body hc hp => by
        simp [Pattern.decode?, Json.fields?, Json.named, hc, hp]),
    own_ahead (fun c p => by rw [Pattern.toJson])
      (fun room c p condition body hc hp => by
        simp [Pattern.decode?, Json.fields?, Json.named, hc, hp]),
    List.forall_mem_nil _⟩

/-- The functions of this library keep the promises of a library for JSON. -/
theorem own_conforms : own.Conforms where
  bool _ := ⟨rfl, rfl⟩
  char c := ⟨rfl, by simp [own, Json.char?]⟩
  count _ _ := ⟨rfl, rfl⟩
  absent _ := ⟨rfl, rfl⟩
  present c a := by
    refine ⟨rfl, fun j hj ha => ?_⟩
    cases j with
    | null => exact absurd rfl hj
    | bool | nat | other | str | arr | obj => exact congrArg (Option.map some) ha
  list c as := by
    refine ⟨rfl, fun js h => ?_⟩
    show js.mapM c.decode = some as
    induction h with
    | nil => rfl
    | cons ha _ ih =>
      rw [List.mapM_cons, ha, ih]
      rfl
  shorthand := own_shorthand
  classItem := own_classItem
  charClass := own_charClass
  pattern := own_pattern
  toText p hp := Json.denotes_compact hp
  ofText? text j p htext hnesting hp := by
    show Pattern.readText? text = some p
    rw [Pattern.readText?, Json.parse_of_denotes htext]
    exact Pattern.decode?_mono hp hnesting

end JsonLibrary
end PatternSweep
