import IdlReader.Proofs.Grammar.DeclaredType
import IdlReader.Proofs.Mirror.Evaluation

/-!
# Names and types in mirrored sessions

In mirrored sessions the same names and types are read. The names stand for mirrored entities.

* `follows_readTypeName`: the names of types.
* `follows_readType`: types.
-/

namespace IdlReader

open IdlReader.Tree

theorem Entity.Mirrors.baseType? {M : Mirror} {id : EntityId} {e e' : Entity}
    (h : e.Mirrors M id e') : e'.baseType? = e.baseType? := by
  unfold Entity.baseType?
  rw [h.kind]
  cases hd : e.declaration? with
  | none => rw [h.declaration?_none hd]
  | some d =>
    obtain ⟨d', hd', hMirrors⟩ := h.declaration? hd
    rw [hd', Option.map_some, Option.map_some, hMirrors.type, DeclaredType.base_renumber]

namespace Parsing

variable {M : Mirror} [M.Reading] {s s' : Session}

/-! ## Names -/

theorem follows_scopedNameRest (n : Nat) (name : String) (last last' : Token)
    (h : s.Mirrors M s') : Follows M (scopedNameRest n name last) (scopedNameRest n name last') s s'
      fun r r' => r'.1 = r.1 := by
  induction n generalizing name last last' s s' with
  | zero => exact follows_fail _ _
  | succ n ih =>
    have hIdentifier : ∀ {u u' : Session} (name : String), u.Mirrors M u' → Follows M (do
        let t ← next
        if t.isIdentifier then scopedNameRest n (name ++ t.text) t
        else failAtToken .identifierExpected t) (do
        let t ← next
        if t.isIdentifier then scopedNameRest n (name ++ t.text) t
        else failAtToken .identifierExpected t) u u' fun r r' => r'.1 = r.1 := by
      intro u u' name hu
      refine (follows_next hu).bind ?_
      intro t t' v v' _ ht hv
      rw [ht.isIdentifier, ht.text]
      exact Follows.ite (fun _ => ih _ _ _ hv) fun _ => follows_failAtToken _ _ _
    unfold scopedNameRest
    refine Follows.ite (fun _ => hIdentifier _ h) fun _ => ?_
    refine (follows_next h).bind ?_
    intro t t' u u' _ ht hu
    rw [ht.is]
    refine Follows.ite (fun _ => hIdentifier _ hu) fun _ => ?_
    exact (follows_putBack hu ht).bind fun _ _ _ _ _ _ hv => Follows.pure hv rfl

theorem follows_readScopedName (h : s.Mirrors M s') {first first' : Token}
    (hFirst : first.Meets M first') : Follows M (readScopedName first) (readScopedName first') s s'
      fun r r' => r'.1 = r.1 := by
  refine Follows.tokensLeft h fun n => ?_
  rw [hFirst.text]
  exact follows_scopedNameRest n _ _ _ h

theorem follows_readTypeName (h : s.Mirrors M s') (scope : EntityId) {first first' : Token}
    (hFirst : first.Meets M first') :
    Follows M (readTypeName scope first) (readTypeName (M.entity scope) first') s s'
      fun r r' => r' = (r.1, M.entity r.2) := by
  unfold readTypeName
  refine (follows_readScopedName h hFirst).bind ?_
  rintro ⟨_, last⟩ ⟨name, last'⟩ u u' _ rfl hu
  refine Follows.tree ?_
  dsimp only
  rw [hu.reflects.findType]
  cases u.tree.findType scope _ with
  | none => exact follows_failAtToken _ _ _
  | some id => exact Follows.pure hu rfl

theorem follows_expectMark (h : s.Mirrors M s') (text : String) (cause : Cause) :
    Follows M (expectMark text cause) (expectMark text cause) s s' fun _ _ => True := by
  unfold expectMark
  refine (follows_next h).bind ?_
  intro t t' u u' _ ht hu
  rw [ht.is]
  exact Follows.ite (fun _ => Follows.pure hu trivial) fun _ => follows_failAtToken _ _ _

/-! ## Parameters of types -/

theorem follows_templateNumber (h : s.Mirrors M s') (least : Nat) (cause : Cause) :
    Follows M (templateNumber least cause) (templateNumber least cause) s s' Eq := by
  unfold templateNumber
  refine (follows_next h).bind ?_
  intro t t' u u' _ ht hu
  rw [ht.kind]
  cases t.kind with
  | literal kind =>
    refine (follows_orThrow hu _ fun c hc => ht.ofLiteral hc).bind ?_
    rintro c _ v v' _ rfl hv
    refine Follows.ite (fun _ => follows_failAtToken _ _ _) fun _ => ?_
    cases c.castInt .uint32 with
    | error cause => exact follows_failAtToken _ _ _
    | ok n => exact Follows.ite (fun _ => Follows.pure hv rfl) fun _ => follows_failAtToken _ _ _
  | _ => exact follows_failAtToken _ _ _

theorem follows_closeTemplate (h : s.Mirrors M s') (cause : Cause) :
    Follows M (closeTemplate cause) (closeTemplate cause) s s' fun _ _ => True := by
  unfold closeTemplate
  refine (follows_next h).bind ?_
  intro t t' u u' _ ht hu
  rw [ht.is, ht.is]
  refine Follows.ite (fun hDouble => ?_) fun _ => ?_
  · refine follows_putBack hu ⟨⟨ht.kind, rfl, fun hExact => ?_⟩,
      lexical_of_not_isWord (isWord_half ht.lexical hDouble)⟩
    rw [ht.exact hExact]
  · exact Follows.ite (fun _ => Follows.pure hu trivial) fun _ => follows_failAtToken _ _ _

theorem follows_takeIf (h : s.Mirrors M s') (text : String) :
    Follows M (takeIf text) (takeIf text) s s' Eq := by
  unfold takeIf
  refine (follows_peek 0 h).bind ?_
  intro t t' u u' _ ht hu
  rw [ht.is]
  refine Follows.ite (fun _ => ?_) fun _ => Follows.pure hu rfl
  exact (follows_next hu).bind fun _ _ _ _ _ _ hv => Follows.pure hv rfl

theorem follows_fixedBounds (h : s.Mirrors M s') :
    Follows M fixedBounds fixedBounds s s' Eq := by
  unfold fixedBounds
  refine (follows_templateNumber h 1 _).bind ?_
  rintro length _ u u' _ rfl hu
  refine (follows_expectMark hu _ _).bind ?_
  intro _ _ v v' _ _ hv
  refine (follows_peek 0 hv).bind ?_
  intro t t' w w' _ ht hw
  refine (follows_templateNumber hw 0 _).bind ?_
  rintro decimals _ x x' _ rfl hx
  dsimp only
  refine Follows.ite (fun _ => follows_failAtToken_bind _ _ _) fun _ => ?_
  exact (follows_closeTemplate hx _).bind fun _ _ _ _ _ _ hy => Follows.pure hy rfl

section Sections

/-- Whether a type stands for another one. -/
def MirrorsType (M : Mirror) (type type' : DeclaredType) : Prop := type' = type.renumber M.entity

variable {element element' : Parsing DeclaredType}
  (hElement : ∀ {s s' : Session}, s.Mirrors M s' →
    Follows M element element' s s' (MirrorsType M))

include hElement

theorem follows_bitfieldSection (h : s.Mirrors M s') (base : BaseType) (text : String) :
    Follows M (bitfieldSection element { base, text }) (bitfieldSection element' { base, text })
      s s' (MirrorsType M) := by
  have hClose : ∀ {u u' : Session} (bits : Nat) (value : Option DeclaredType), u.Mirrors M u' →
      Follows M (do
        closeTemplate .templateClose
        return ({ base, text, length := bits, value } : DeclaredType)) (do
        closeTemplate .templateClose
        return ({ base, text, length := bits
                  value := DeclaredType.renumberPart M.entity value } : DeclaredType))
        u u' (MirrorsType M) :=
    fun bits value hu => (follows_closeTemplate hu _).bind fun _ _ _ _ _ _ hv =>
      Follows.pure hv rfl
  unfold bitfieldSection
  refine (follows_expectMark h _ _).bind ?_
  intro _ _ u u' _ _ hu
  refine (follows_peek 0 hu).bind ?_
  intro t t' v v' _ ht hv
  refine (follows_templateNumber hv 1 _).bind ?_
  rintro bits _ w w' _ rfl hw
  dsimp only
  refine Follows.ite (fun _ => follows_failAtToken_bind _ _ _) fun _ => ?_
  refine (follows_takeIf hw ",").bind ?_
  rintro more _ x x' _ rfl hx
  refine Follows.ite (fun _ => ?_) fun _ => hClose bits none hx
  refine (hElement hx).bind ?_
  rintro value _ y y' _ rfl hy
  rw [DeclaredType.kind?_renumber]
  exact Follows.ite (fun _ => hClose bits (some value) hy) fun _ => follows_failAtToken_bind _ _ _

theorem follows_containerSection (h : s.Mirrors M s') (base : BaseType) (text : String) :
    Follows M (containerSection element { base, text }) (containerSection element' { base, text })
      s s' (MirrorsType M) := by
  have hClose : ∀ {u u' : Session} (length : Nat) (key : Option DeclaredType)
      (value : DeclaredType), u.Mirrors M u' → Follows M (do
        closeTemplate .templateClose
        return ({ base, text, length, key, value := some value } : DeclaredType)) (do
        closeTemplate .templateClose
        return ({ base, text, length, key := DeclaredType.renumberPart M.entity key
                  value := some (value.renumber M.entity) } : DeclaredType))
        u u' (MirrorsType M) :=
    fun length key value hu => (follows_closeTemplate hu _).bind fun _ _ _ _ _ _ hv =>
      Follows.pure hv rfl
  have hValue : ∀ {u u' : Session} (key : Option DeclaredType), u.Mirrors M u' → Follows M (do
        let value ← element
        if ← takeIf "," then
          let length ← templateNumber 1 .sizeNumber
          closeTemplate .templateClose
          return ({ base, text, length, key, value := some value } : DeclaredType)
        else
          let length ← pure 0
          closeTemplate .templateClose
          return ({ base, text, length, key, value := some value } : DeclaredType)) (do
        let value ← element'
        if ← takeIf "," then
          let length ← templateNumber 1 .sizeNumber
          closeTemplate .templateClose
          return ({ base, text, length, key := DeclaredType.renumberPart M.entity key
                    value := some value } : DeclaredType)
        else
          let length ← pure 0
          closeTemplate .templateClose
          return ({ base, text, length, key := DeclaredType.renumberPart M.entity key
                    value := some value } : DeclaredType)) u u' (MirrorsType M) := by
    intro u u' key hu
    refine (hElement hu).bind ?_
    rintro value _ v v' _ rfl hv
    refine (follows_takeIf hv ",").bind ?_
    rintro more _ w w' _ rfl hw
    refine Follows.ite (fun _ => ?_) fun _ => hClose 0 key value hw
    refine (follows_templateNumber hw 1 _).bind ?_
    rintro length _ x x' _ rfl hx
    exact hClose length key value hx
  unfold containerSection
  refine (follows_expectMark h _ _).bind ?_
  intro _ _ u u' _ _ hu
  dsimp only
  refine Follows.ite (fun _ => ?_) fun _ => hValue none hu
  refine (hElement hu).bind ?_
  rintro key _ v v' _ rfl hv
  exact (follows_expectMark hv _ _).bind fun _ _ _ _ _ _ hw => hValue (some key) hw

end Sections

/-! ## Types -/

theorem follows_takeWord (h : s.Mirrors M s') (text : String) :
    Follows M (baseTypeText.takeWord text) (baseTypeText.takeWord text) s s' Eq := by
  unfold baseTypeText.takeWord
  refine (follows_next h).bind ?_
  intro t t' u u' _ ht hu
  rw [ht.is]
  refine Follows.ite (fun _ => Follows.pure hu rfl) fun _ => ?_
  exact (follows_putBack hu ht).bind fun _ _ _ _ _ _ hv => Follows.pure hv rfl

theorem follows_baseTypeText (h : s.Mirrors M s') {t t' : Token} (ht : t.Meets M t') :
    Follows M (baseTypeText t) (baseTypeText t') s s' Eq := by
  unfold baseTypeText
  rw [ht.is, ht.is, ht.text]
  refine Follows.ite (fun _ => ?_) fun _ => Follows.ite (fun _ => ?_) fun _ => Follows.pure h rfl
  · refine (follows_next h).bind ?_
    intro v v' u u' _ hv hu
    rw [hv.isOneOf, hv.text]
    refine Follows.ite (fun _ => Follows.pure hu rfl) fun _ => ?_
    exact (follows_putBack hu hv).bind fun _ _ _ _ _ _ hw => Follows.pure hw rfl
  · refine (follows_next h).bind ?_
    intro v v' u u' _ hv hu
    rw [hv.is, hv.is]
    refine Follows.ite (fun _ => Follows.pure hu rfl) fun _ =>
      Follows.ite (fun _ => ?_) fun _ => follows_failAtToken _ _ _
    refine (follows_takeWord hu "long").bind ?_
    rintro more _ w w' _ rfl hw
    exact Follows.ite (fun _ => Follows.pure hw rfl) fun _ => Follows.pure hw rfl

theorem follows_elaboratedType (h : s.Mirrors M s') (scope : EntityId) (base : BaseType)
    (kind : EntityKind) (keyword keyword' : Token) :
    Follows M (elaboratedType scope base kind keyword)
      (elaboratedType (M.entity scope) base kind keyword') s s' (MirrorsType M) := by
  unfold elaboratedType
  refine (follows_next h).bind ?_
  intro first first' u u' _ hFirst hu
  refine (follows_readTypeName hu scope hFirst).bind ?_
  rintro ⟨name, id⟩ _ v v' _ rfl hv
  refine Follows.tree ?_
  dsimp only
  rw [hv.reflects.resolved, (hv.tree.entity _).kind]
  exact Follows.ite (fun _ => follows_failAtToken_bind _ _ _) fun _ => Follows.pure hv rfl

theorem follows_namedType (h : s.Mirrors M s') (scope : EntityId) {first first' : Token}
    (hFirst : first.Meets M first') :
    Follows M (namedType scope first) (namedType (M.entity scope) first') s s'
      (MirrorsType M) := by
  unfold namedType
  refine (follows_readTypeName h scope hFirst).bind ?_
  rintro ⟨name, id⟩ _ u u' _ rfl hu
  refine Follows.entity ?_
  rw [(hu.tree.entity id).baseType?]
  cases (u.tree.get id).baseType? with
  | none => exact follows_failAtToken _ _ _
  | some base => exact Follows.pure hu rfl

theorem follows_baseType {element element' : Parsing DeclaredType}
    (hElement : ∀ {s s' : Session}, s.Mirrors M s' →
      Follows M element element' s s' (MirrorsType M))
    (h : s.Mirrors M s') (scope : EntityId) (keyword keyword' : Token) (base : BaseType)
    (text : String) :
    Follows M (baseType element scope keyword base text)
      (baseType element' (M.entity scope) keyword' base text) s s' (MirrorsType M) := by
  have hPlain : ∀ {u u' : Session} (length decimals : Nat), u.Mirrors M u' →
      Follows M (pure ({ base, text, length, decimals } : DeclaredType))
        (pure ({ base, text, length, decimals } : DeclaredType)) u u' (MirrorsType M) :=
    fun length decimals hu => Follows.pure hu (DeclaredType.renumber_plain _ _ _ _).symm
  unfold baseType
  dsimp only
  cases base.elaborates? with
  | some kind => exact follows_elaboratedType h scope base kind _ _
  | none =>
    refine Follows.ite (fun _ => ?_) fun _ => Follows.ite (fun _ => ?_) fun _ =>
      Follows.ite (fun _ => follows_bitfieldSection hElement h base text) fun _ =>
        Follows.ite (fun _ => follows_containerSection hElement h base text) fun _ => hPlain 0 0 h
    · refine (follows_takeIf h "<").bind ?_
      rintro bounded _ u u' _ rfl hu
      refine Follows.ite (fun _ => ?_) fun _ => hPlain 0 0 hu
      refine (follows_fixedBounds hu).bind ?_
      rintro ⟨length, decimals⟩ _ v v' _ rfl hv
      exact hPlain length decimals hv
    · refine (follows_takeIf h "<").bind ?_
      rintro bounded _ u u' _ rfl hu
      refine Follows.ite (fun _ => ?_) fun _ => hPlain 0 0 hu
      refine (follows_templateNumber hu 1 _).bind ?_
      rintro length _ v v' _ rfl hv
      exact (follows_closeTemplate hv _).bind fun _ _ _ _ _ _ hw => hPlain length 0 hw

theorem follows_typeWithin (scope : EntityId) (n : Nat) (h : s.Mirrors M s') :
    Follows M (typeWithin scope n) (typeWithin (M.entity scope) n) s s' (MirrorsType M) := by
  induction n generalizing s s' with
  | zero => exact follows_fail _ _
  | succ n ih =>
    unfold typeWithin
    refine (follows_next h).bind ?_
    intro t t' u u' _ ht hu
    rw [ht.isWord, ht.is, ht.isKeyword]
    dsimp only
    refine Follows.ite (fun _ => follows_failAtToken_bind _ _ _) fun _ => ?_
    refine (follows_baseTypeText hu ht).bind ?_
    rintro text _ v v' _ rfl hv
    refine Follows.get ?_
    rw [hv.env]
    split
    · exact follows_baseType (fun hw => ih hw) hv scope _ _ _ text
    · exact follows_namedType hv scope ht

/-- Types that are visible in mirrored entities. -/
theorem follows_readType (h : s.Mirrors M s') (scope : EntityId) :
    Follows M (readType scope) (readType (M.entity scope)) s s' (MirrorsType M) :=
  Follows.tokensLeft h fun n => follows_typeWithin scope n h

end Parsing

end IdlReader
