import IdlReader.Digest
import IdlReader.Entity.Tree

/-!
# Fingerprints of entities

The fingerprint of an entity is a digest of everything it depends on: its names, types,
values and members, and the definitions that its types refer to. What an entity depends on
is first listed (`Tree.traits`) and then digested (`Tree.fingerprint`); positions and
comments are not part of it. `Tree.identity` is a digest of the name and the kind alone.

* `fingerprint_eq_of_traits_eq`: entities that depend on the same have one fingerprint.
-/

namespace IdlReader

/-- One thing that an entity depends on. -/
inductive Trait where
  | text (s : String)
  | number (n : Nat)
  /-- The end of a list. -/
  | stop
deriving DecidableEq, Repr

namespace Trait

/-- The word of a text. -/
def textWord (s : String) : UInt64 := Digest.ofBytes s.toUTF8.toList

/-- The words of a trait. A text is closed by a byte that is in no text. -/
def words : Trait → List UInt64
  | text s => [textWord s, 0xff]
  | number n => [UInt64.ofNat n]
  | stop => [0xfe]

end Trait

namespace DeclaredType

mutual

/-- The traits of a type. `entity` lists those of the definition that it refers to. -/
def traits (entity : EntityId → List Trait) : DeclaredType → List Trait
  | ⟨_, text, definition, length, decimals, key, value⟩ =>
    .text text :: .number length :: .number decimals ::
      ((definition.map entity).getD [] ++ optionalTraits entity key ++
        optionalTraits entity value)

/-- The traits of a type if there is one. -/
def optionalTraits (entity : EntityId → List Trait) : Option DeclaredType → List Trait
  | none => []
  | some t => t.traits entity

end

end DeclaredType

namespace Tree

/-- The scoped names of entities as traits. -/
def nameTraits (t : Tree) (ids : List EntityId) : List Trait :=
  ids.map fun id => .text (t.scopedName id)

/-- A word if something holds. -/
def flagTrait (b : Bool) (word : String) : List Trait := if b then [.text word] else []

/-- The traits of a definition. -/
def definitionTraits (t : Tree) (entity : EntityId → List Trait) (d : Definition) :
    List Trait :=
  t.nameTraits d.bases ++ DeclaredType.optionalTraits entity d.switchType ++
    flagTrait d.isLocal "local"

/-- The traits of a declaration. -/
def declarationTraits (t : Tree) (entity : EntityId → List Trait) (d : Declaration) :
    List Trait :=
  d.type.traits entity ++ d.dimensions.map (fun ts => Trait.text (joinTexts ts)) ++
    [Trait.text d.assignmentText, Trait.text d.value.display] ++
    flagTrait d.readonly "readonly" ++ d.direction.toList.map (fun x => Trait.text x.name) ++
    d.labels.map (fun ts => Trait.text (joinTexts ts)) ++ flagTrait d.defaultCase "default" ++
    t.nameTraits d.raises ++ [Trait.stop] ++ t.nameTraits d.getRaises ++ [Trait.stop] ++
    t.nameTraits d.setRaises ++ [Trait.stop]

/-- The traits of what only some kinds of entities have. -/
def dataTraits (t : Tree) (entity : EntityId → List Trait) : EntityData → List Trait
  | .root _ => []
  | .record _ content => [.text content]
  | .definition d => t.definitionTraits entity d
  | .declaration d => t.declarationTraits entity d

/-- The traits of an entity inside of the entities `around`, to which it may refer back by
their names only. -/
def traitsWithin (t : Tree) : (budget : Nat) → (around : List EntityId) → EntityId → List Trait
  | 0, _, _ => []
  | n + 1, around, id =>
    .text (t.scopedName id) ::
      if around.contains id then []
      else
        let e := t.get id
        let inner := t.traitsWithin n (id :: around)
        .text e.kind.keyword ::
          (t.dataTraits inner e.data ++ e.children.flatMap inner ++
            (t.parameters id).flatMap inner)

/-- Everything that an entity depends on. -/
def traits (t : Tree) (id : EntityId) : List Trait := t.traitsWithin (t.size + 1) [] id

/-- The digest of everything that an entity depends on. -/
def fingerprint (t : Tree) (id : EntityId) : UInt64 :=
  (Digest.addAll {} ((t.traits id).flatMap Trait.words)).value

/-- The digest of the name and the kind of an entity. -/
def identity (t : Tree) (id : EntityId) : UInt64 :=
  (Digest.addAll {}
    [Trait.textWord (t.scopedName id), Trait.textWord (t.get id).kind.keyword]).value

theorem fingerprint_eq_of_traits_eq {t u : Tree} {i j : EntityId}
    (h : t.traits i = u.traits j) : t.fingerprint i = u.fingerprint j := by
  simp [fingerprint, h]

end Tree

end IdlReader
