import Mathlib.Data.List.Forall2
import PatternSweep.Proofs.JsonTexts

/-!
# Data as values of JSON

A `Codec` is how the values of a type are written as values of JSON and read from them. What it does
is said by laws that describe a type by its parts, and not by a definition. The values of a type are
made of `Contents`: of one part alone, of several parts without names or of several parts with
names. In a type of several variants each value carries the name of its variant on the outside
(`Variant.Tagged`).

A codec `Carries` a value if what it writes for it has a meaning throughout and is read back as that
value. By its laws a codec carries what is made of parts that their codecs carry
(`Variant.Tagged.carries`).
-/

namespace PatternSweep

/-- How the values of a type are written as values of JSON and read from them. -/
structure Codec (α : Type) where
  encode : α → Json
  decode : Json → Option α

/-- What is written for a value has a meaning throughout and is read as that value. -/
structure Codec.Carries {α : Type} (c : Codec α) (a : α) : Prop where
  plain : (c.encode a).Plain
  decode_encode : c.decode (c.encode a) = some a

/-- A part of the values of a type: which one it is, and how it is written and read. -/
structure Part (β : Type) : Type 1 where
  type : Type
  codec : Codec type
  get : β → type

namespace Part

variable {β τ : Type}

/-- The part that `get` takes out. -/
def of (c : Codec τ) (get : β → τ) : Part β := ⟨τ, c, get⟩

/-- What is written for the part of a value. -/
def encode (x : Part β) (b : β) : Json := x.codec.encode (x.get b)

/-- The value of JSON is read as the part of `b`. -/
def Reads (x : Part β) (j : Json) (b : β) : Prop := x.codec.decode j = some (x.get b)

/-- The part of `b` is carried. -/
def Carries (x : Part β) (b : β) : Prop := x.codec.Carries (x.get b)

end Part

/-- What the values of a type are made of. -/
inductive Contents (β : Type) : Type 1
  /-- One part, written as it is. -/
  | single (x : Part β)
  /-- Several parts, written as an array. -/
  | tuple (xs : List (Part β))
  /-- Several parts, written as an object with their names for keys. -/
  | record (fields : List (String × Part β))

namespace Contents

variable {β : Type}

/-- All the parts. -/
def parts : Contents β → List (Part β)
  | single x => [x]
  | tuple xs => xs
  | record fields => fields.map Prod.snd

/-- What is written for a value. -/
def encode : Contents β → β → Json
  | single x, b => x.encode b
  | tuple xs, b => .arr (xs.map (·.encode b))
  | record fields, b => .obj (fields.map fun f => (f.1, f.2.encode b))

/-- The value of JSON has parts that are read as those of `b`, in their places. -/
inductive Reads : Contents β → Json → β → Prop
  | single {x : Part β} {j : Json} {b : β} (h : x.Reads j b) : Reads (.single x) j b
  | tuple {xs : List (Part β)} {js : List Json} {b : β}
      (h : List.Forall₂ (fun x j => x.Reads j b) xs js) : Reads (.tuple xs) (.arr js) b
  | record {fields : List (String × Part β)} {js : List Json} {b : β}
      (h : List.Forall₂ (fun f j => f.2.Reads j b) fields js) :
      Reads (.record fields) (.obj ((fields.map Prod.fst).zip js)) b

variable {contents : Contents β} {b : β}

/-- What is written for a value is read as that value. -/
theorem reads_encode (h : ∀ x ∈ contents.parts, x.Carries b) :
    contents.Reads (contents.encode b) b := by
  cases contents with
  | single x => exact .single (h x List.mem_cons_self).decode_encode
  | tuple xs =>
    refine .tuple (List.forall₂_map_right_iff.2 (List.forall₂_same.2 fun x hx => ?_))
    exact (h x hx).decode_encode
  | record fields =>
    have hfields : (fields.map Prod.fst).zip (fields.map fun f => f.2.encode b) =
        fields.map fun f => (f.1, f.2.encode b) := List.zip_map'
    rw [encode, ← hfields]
    refine .record (List.forall₂_map_right_iff.2 (List.forall₂_same.2 fun f hf => ?_))
    exact (h f.2 (List.mem_map_of_mem hf)).decode_encode

theorem plain_encode (h : ∀ x ∈ contents.parts, x.Carries b) : (contents.encode b).Plain := by
  cases contents with
  | single x => exact (h x List.mem_cons_self).plain
  | tuple xs => exact .arr (List.forall_mem_map.2 fun x hx => (h x hx).plain)
  | record fields =>
    exact .obj (List.forall_mem_map.2 fun f hf => (h f.2 (List.mem_map_of_mem hf)).plain)

end Contents

/-- The values of the type are written and read by their contents. -/
structure Codec.Holds {β : Type} (c : Codec β) (contents : Contents β) : Prop where
  encode : ∀ b, c.encode b = contents.encode b
  decode : ∀ j b, contents.Reads j b → c.decode j = some b

theorem Codec.Holds.carries {β : Type} {c : Codec β} {contents : Contents β} {b : β}
    (h : c.Holds contents) (hb : ∀ x ∈ contents.parts, x.Carries b) : c.Carries b where
  plain := by
    rw [h.encode]
    exact Contents.plain_encode hb
  decode_encode := by
    rw [h.encode]
    exact h.decode _ _ (Contents.reads_encode hb)

/-- A variant of a type by its name: one value alone, or what is made of some contents. -/
inductive Variant (α : Type) : Type 1
  | unit (name : String) (a : α)
  | holding {β : Type} (name : String) (contents : Contents β) (make : β → α)

namespace Variant

variable {α β : Type} {c : Codec α} {name : String}

/-- The values of the variant carry its name on the outside: a value alone is its name, and the
others are objects with one member, which has the name for its key. -/
inductive Tagged (c : Codec α) : Variant α → Prop
  | unit {name : String} {a : α} (hencode : c.encode a = .str name)
      (hdecode : c.decode (.str name) = some a) : Tagged c (.unit name a)
  | holding {β : Type} {name : String} {contents : Contents β} {make : β → α}
      (hencode : ∀ b, c.encode (make b) = .obj [(name, contents.encode b)])
      (hdecode : ∀ j b, contents.Reads j b → c.decode (.obj [(name, j)]) = some (make b)) :
      Tagged c (.holding name contents make)

theorem Tagged.carries_unit {a : α} (h : Tagged c (.unit name a)) : c.Carries a := by
  cases h with
  | unit hencode hdecode => exact ⟨hencode ▸ .str name, hencode ▸ hdecode⟩

/-- What is made of parts that are carried is carried. -/
theorem Tagged.carries {contents : Contents β} {make : β → α} {b : β}
    (h : Tagged c (.holding name contents make)) (hb : ∀ x ∈ contents.parts, x.Carries b) :
    c.Carries (make b) := by
  cases h with
  | holding hencode hdecode =>
    refine ⟨?_, ?_⟩
    · rw [hencode]
      exact .obj (List.forall_mem_singleton.2 (Contents.plain_encode hb))
    · rw [hencode]
      exact hdecode _ _ (Contents.reads_encode hb)

end Variant
end PatternSweep
