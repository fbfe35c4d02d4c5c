import ArbitraryComposer.ToMathlib.DepthFirst
import ArbitraryComposer.ToMathlib.Machine

/-!
# Operator-Binding Scopes

A driver binds the contents of a document to its services before it renders: a scope attaches every
content that can be reached, sees through nested compositions as it goes, and detaches what it
attached when it is released. A content holds one attachment, so scopes that overlap write the same
pointers.

## Main definitions

- `Binders`, `Attachment`: which contents take services, and what they hold.
- `bindOperators`: the walk that attaches.
- `OperatorBindingScope`, `bindingScopes`: scopes that are opened, moved, released and destroyed.
- `BindingsLast`: the promise of a scope.

## Main results

- `bindOperators_spec`: a bind attaches every content that is reached, once.
- `bindingScopes_last`: when the bindings of open scopes last.
- `not_bindingScopes_last`: an inner scope that ends takes the outer one's bindings with it.
-/

namespace ArbitraryComposer

open Relation

/-! ## Attaching contents -/

/-- The services of a bind: the driver's pull service and backend, and the version it pinned. -/
structure BindServices where
  /-- The pull service. -/
  pull : ℕ
  /-- The backend. -/
  backend : ℕ
  /-- The pinned version. -/
  pin : ℕ
  deriving DecidableEq

/-- What a content holds of a bind. -/
structure Attachment where
  /-- `d_pull`. -/
  pull : ℕ
  /-- `d_backend`. -/
  backend : ℕ
  /-- `d_doc`, of the kinds that read the pinned version. -/
  pin : Option ℕ
  deriving DecidableEq

/-- A registered binder of the library. -/
structure OperatorBinder (κ : Type) where
  /-- Whether `try_attach` matches a content. -/
  accepts : κ → Bool
  /-- Whether the kind takes the resolver and the pinned version. -/
  pinned : Bool

/-- The binders: those of the library, then those of plugins. -/
structure Binders (κ : Type) where
  /-- `registry()`. -/
  builtin : List (OperatorBinder κ)
  /-- The plugin binders of the document's registry, by what they match. -/
  plugin : List (κ → Bool)

/-- The contents of a document. -/
structure BoundDocument (κ : Type) where
  /-- `for_each_content`. -/
  contents : List (Option κ)
  /-- The inputs of a content that reads a version, or none. -/
  inputs : κ → Option ℕ → List (Option κ)

variable {κ : Type}

/-- Whether the first binder that matches a content pins it; none when no binder matches. -/
def Binders.find (B : Binders κ) (c : κ) : Option Bool :=
  match B.builtin.find? fun binder => binder.accepts c with
  | some binder => some binder.pinned
  | none => if B.plugin.any fun accepts => accepts c then some false else none

/-- What a matching binder hands to a content. -/
def Binders.attachment (B : Binders κ) (services : BindServices) (c : κ) : Option Attachment :=
  (B.find c).map fun pinned =>
    ⟨services.pull, services.backend, if pinned then some services.pin else none⟩

/-- What contents hold, and the contents that a walk has recorded, in order. -/
structure Attaching (κ : Type) where
  /-- What contents hold. -/
  held : κ → Option Attachment
  /-- `d_bound`. -/
  bound : List κ

section Walk

variable [DecidableEq κ] (B : Binders κ) (services : BindServices)

/-- A content is offered to the binders. -/
def attach (c : κ) (s : Attaching κ) : Attaching κ :=
  match B.attachment services c with
  | some a => ⟨fun c' => if c' = c then some a else s.held c', s.bound ++ [c]⟩
  | none => s

/-- The inputs that a content shows while it holds what it holds. -/
def BoundDocument.shown (document : BoundDocument κ) (c : κ) (s : Attaching κ) :
    List (Option κ) := document.inputs c ((s.held c).bind Attachment.pin)

/-- `bind_operators`. -/
def bindOperators [Fintype κ] (document : BoundDocument κ) (held : κ → Option Attachment) :
    Attaching κ :=
  (depthFirstAll (attach B services) document.shown (Fintype.card κ) document.contents
    ([], ⟨held, []⟩)).2

/-- The inputs of a content once it was offered to the binders. -/
def BoundDocument.edges (document : BoundDocument κ) (c : κ) : List (Option κ) :=
  document.inputs c ((B.attachment services c).bind Attachment.pin)

/-- The contents that a bind reaches: through every input that it sees. -/
def BoundDocument.Reaches (document : BoundDocument κ) (c : κ) : Prop :=
  ∃ r, some r ∈ document.contents ∧
    ReflTransGen (fun a b => some b ∈ document.edges B services a) r c

variable {B services} {document : BoundDocument κ} {s : Attaching κ}

omit [DecidableEq κ] in
theorem Binders.attachment_eq_none {c : κ} : B.attachment services c = none ↔ B.find c = none := by
  rw [Binders.attachment, Option.map_eq_none_iff]

/-- Only contents with a binder hold anything. -/
def OnlyBound (B : Binders κ) (held : κ → Option Attachment) : Prop :=
  ∀ c, B.find c = none → held c = none

theorem OnlyBound.attach (h : OnlyBound B s.held) (c : κ) :
    OnlyBound B (attach B services c s).held := by
  intro c' hc'
  unfold ArbitraryComposer.attach
  split
  case h_1 a ha =>
    have hne : c' ≠ c := by
      rintro rfl
      rw [Binders.attachment_eq_none.mpr hc'] at ha
      cases ha
    show (if c' = c then some a else s.held c') = none
    rw [if_neg hne]
    exact h c' hc'
  case h_2 => exact h c' hc'

/-- After it was offered, a content shows the inputs that go with its binder. -/
theorem shown_attach (h : OnlyBound B s.held) (c : κ) :
    document.shown c (attach B services c s) = document.edges B services c := by
  rw [BoundDocument.shown, BoundDocument.edges]
  unfold ArbitraryComposer.attach
  split
  case h_1 a ha =>
    show document.inputs c ((if c = c then some a else s.held c).bind _) = _
    rw [if_pos rfl, ha]
  case h_2 hnone => rw [h c (Binders.attachment_eq_none.mp hnone), hnone]

/-- What a walk leaves contents with, when it entered some of them. -/
private theorem foldr_attach (order : List κ) (hnodup : order.Nodup)
    (held : κ → Option Attachment) :
    (order.foldr (attach B services) ⟨held, []⟩).bound =
        (order.filter fun c => (B.attachment services c).isSome).reverse ∧
      ∀ c, (order.foldr (attach B services) ⟨held, []⟩).held c =
        if c ∈ order ∧ (B.attachment services c).isSome then B.attachment services c
        else held c := by
  induction order with
  | nil => exact ⟨rfl, fun c => (if_neg (by simp)).symm⟩
  | cons node order ih =>
    obtain ⟨hnode, hnodup⟩ := List.nodup_cons.mp hnodup
    obtain ⟨hbound, hheld⟩ := ih hnodup
    rw [List.foldr_cons]
    generalize order.foldr (attach B services) ⟨held, []⟩ = s at hbound hheld
    unfold attach
    split
    case h_1 a ha =>
      constructor
      · rw [List.filter_cons_of_pos (by rw [ha]; rfl), List.reverse_cons, ← hbound]
      · intro c
        show (if c = node then some a else s.held c) = _
        by_cases hc : c = node
        · subst hc
          rw [if_pos rfl, if_pos ⟨List.mem_cons_self, by rw [ha]; rfl⟩, ha]
        · rw [if_neg hc, hheld]
          simp only [List.mem_cons, hc, false_or]
    case h_2 hnone =>
      constructor
      · rw [List.filter_cons_of_neg (by rw [hnone]; exact Bool.false_ne_true), hbound]
      · intro c
        rw [hheld]
        by_cases hc : c = node
        · subst hc
          simp [hnone]
        · simp only [List.mem_cons, hc, false_or]

/-- A bind attaches every content that is reached and has a binder, and records each of them once;
the others hold what they held. -/
theorem bindOperators_spec [Fintype κ] (services : BindServices) (document : BoundDocument κ)
    {held : κ → Option Attachment} (h : OnlyBound B held) :
    (bindOperators B services document held).bound.Nodup ∧
      (∀ c, c ∈ (bindOperators B services document held).bound ↔
        document.Reaches B services c ∧ (B.find c).isSome) ∧
      ∀ c, (bindOperators B services document held).held c =
        if c ∈ (bindOperators B services document held).bound then B.attachment services c
        else held c := by
  obtain ⟨order, hnodup, hmem, hwalk⟩ := depthFirstAll_spec
    (I := fun s : Attaching κ => OnlyBound B s.held)
    (fun c s hs => (shown_attach hs c : document.shown c (attach B services c s) = _))
    (fun c s hs => hs.attach c) document.contents (s := ⟨held, []⟩) h
  obtain ⟨hbound, hheld⟩ := foldr_attach order hnodup held
  have hresult : bindOperators B services document held =
      order.foldr (attach B services) ⟨held, []⟩ := by
    rw [bindOperators, hwalk]
  have hsome : ∀ c, (B.attachment services c).isSome = (B.find c).isSome := fun c =>
    Option.isSome_map
  have hiff : ∀ c, c ∈ (bindOperators B services document held).bound ↔
      c ∈ order ∧ (B.find c).isSome := by
    intro c
    rw [hresult, hbound, List.mem_reverse, List.mem_filter, hsome]
  refine ⟨?_, fun c => ?_, fun c => ?_⟩
  · rw [hresult, hbound]
    exact List.nodup_reverse.mpr (hnodup.filter _)
  · rw [hiff, hmem]
    rfl
  · have hcond : (c ∈ order ∧ (B.attachment services c).isSome) ↔
        c ∈ (bindOperators B services document held).bound := by
      rw [hiff, hsome]
    rw [hresult, hheld]
    exact if_congr (hresult ▸ hcond) rfl rfl

end Walk

/-! ## Scopes -/

/-- `OperatorBindingScope`. -/
structure OperatorBindingScope (κ : Type) where
  /-- `d_bound`. -/
  bound : List κ
  /-- `d_pin`. -/
  pin : Option ℕ
  deriving DecidableEq

/-- A scope that was not bound, or whose binding has ended or was moved away. -/
def OperatorBindingScope.empty : OperatorBindingScope κ := ⟨[], none⟩

/-- The scopes of all drivers, and what contents hold. -/
structure BindingScopes (κ : Type) where
  /-- What contents hold. -/
  held : κ → Option Attachment
  /-- The scope objects. -/
  scopes : ℕ → OperatorBindingScope κ

/-- What a driver does with scopes. -/
inductive ScopeEvent (κ : Type) where
  /-- A new scope is bound. -/
  | bind (scope : ℕ) (document : BoundDocument κ) (services : BindServices)
  /-- A scope is moved into another, which is new or is assigned to. -/
  | move (into source : ℕ)
  /-- A scope is released or destroyed. -/
  | release (scope : ℕ)

section Scopes

variable [DecidableEq κ]

/-- `release`: the contents are detached, the last one first, and the pin is dropped. -/
def BindingScopes.release (s : BindingScopes κ) (i : ℕ) : BindingScopes κ where
  held := (s.scopes i).bound.reverse.foldl
    (fun held c c' => if c' = c then none else held c') s.held
  scopes j := if j = i then .empty else s.scopes j

/-- The vectors and the pins are moved, and the source is cleared. -/
def BindingScopes.transfer (s : BindingScopes κ) (into source : ℕ) : BindingScopes κ where
  held := s.held
  scopes j := if j = source then .empty else if j = into then s.scopes source else s.scopes j

/-- The scopes over the contents of a process. -/
def bindingScopes [Fintype κ] (B : Binders κ) : Machine (BindingScopes κ) (ScopeEvent κ) where
  start s := s = ⟨fun _ => none, fun _ => .empty⟩
  step
    | .bind i document services, s =>
      if s.scopes i = .empty then
        let a := bindOperators B services document s.held
        some ⟨a.held, fun j => if j = i then ⟨a.bound, some services.pin⟩ else s.scopes j⟩
      else none
    | .move into source, s =>
      if into = source then some s else some ((s.release into).transfer into source)
    | .release i, s => some (s.release i)

/-- What every open scope was bound to. -/
abbrev ScopeOrigins (κ : Type) : Type := ℕ → Option (BoundDocument κ × BindServices)

/-- What a step changes about the origins of scopes. -/
def ScopeEvent.origins (r : ScopeOrigins κ) : ScopeEvent κ → ScopeOrigins κ
  | .bind i document services => fun j => if j = i then some (document, services) else r j
  | .move into source =>
    if into = source then r
    else fun j => if j = source then none else if j = into then r source else r j
  | .release i => fun j => if j = i then none else r j

/-- The scopes with their origins. -/
def recordedScopes [Fintype κ] (B : Binders κ) :
    Machine (BindingScopes κ × ScopeOrigins κ) (ScopeEvent κ) :=
  (bindingScopes B).observe (fun _ _ => none) fun e _ _ r => e.origins r

/-- A scope is open for a document and services: it bound what a bind reaches, each content once, and
holds the version that the driver pinned. -/
structure BoundOnce (B : Binders κ) (scope : OperatorBindingScope κ) (document : BoundDocument κ)
    (services : BindServices) : Prop where
  /-- The pin is held. -/
  pin : scope.pin = some services.pin
  /-- No content is recorded twice. -/
  nodup : scope.bound.Nodup
  /-- Every content with a binder that is reached is recorded, and no other. -/
  mem_iff : ∀ c, c ∈ scope.bound ↔ document.Reaches B services c ∧ (B.find c).isSome

/-- The promise of scopes. -/
structure BindingsLast (B : Binders κ) (p : BindingScopes κ × ScopeOrigins κ) : Prop where
  /-- A scope without an origin is closed. -/
  closed : ∀ i, p.2 i = none → p.1.scopes i = .empty
  /-- An open scope has bound what it reached, once. -/
  once : ∀ i document services, p.2 i = some (document, services) →
    BoundOnce B (p.1.scopes i) document services
  /-- What an open scope has bound is attached to the services of the scope. -/
  attached : ∀ i document services, p.2 i = some (document, services) →
    ∀ c ∈ (p.1.scopes i).bound, p.1.held c = B.attachment services c
  /-- Without an open scope no content holds a service or a pin. -/
  cleared : (∀ i, p.2 i = none) → ∀ c, p.1.held c = none

/-- Scopes that overlap agree: a bind reaches a content of an open scope only for the services that
it holds already; and what a scope detaches no other scope has bound. -/
def ScopesAgree (B : Binders κ) (e : ScopeEvent κ) (p : BindingScopes κ × ScopeOrigins κ) : Prop :=
  let apart (i : ℕ) : Prop :=
    ∀ j, j ≠ i → ∀ c ∈ (p.1.scopes i).bound, c ∉ (p.1.scopes j).bound
  match e with
  | .bind _ document services => ∀ j, ∀ c ∈ (p.1.scopes j).bound,
    document.Reaches B services c → p.1.held c = B.attachment services c
  | .move into source => into = source ∨ apart into
  | .release i => apart i

/-! ## The invariant -/

variable {B : Binders κ} {s : BindingScopes κ} {r : ScopeOrigins κ}
  {p p' : BindingScopes κ × ScopeOrigins κ} {e : ScopeEvent κ}

/-- What holds of scopes in any run. -/
structure ScopesSound (B : Binders κ) (p : BindingScopes κ × ScopeOrigins κ) : Prop where
  /-- A scope without an origin is closed. -/
  closed : ∀ i, p.2 i = none → p.1.scopes i = .empty
  /-- An open scope has bound what it reached, once. -/
  once : ∀ i document services, p.2 i = some (document, services) →
    BoundOnce B (p.1.scopes i) document services
  /-- What a content holds it holds for a scope. -/
  owned : ∀ c, p.1.held c ≠ none → ∃ i, c ∈ (p.1.scopes i).bound
  /-- Only contents with a binder hold anything. -/
  only : OnlyBound B p.1.held

/-- What an open scope has bound is attached to the services of the scope. -/
def ScopesAttached (B : Binders κ) (p : BindingScopes κ × ScopeOrigins κ) : Prop :=
  ∀ i document services, p.2 i = some (document, services) →
    ∀ c ∈ (p.1.scopes i).bound, p.1.held c = B.attachment services c

theorem held_release (s : BindingScopes κ) (i : ℕ) (c : κ) :
    (s.release i).held c = if c ∈ (s.scopes i).bound then none else s.held c := by
  have hfold : ∀ (l : List κ) (held : κ → Option Attachment),
      l.foldl (fun held c c' => if c' = c then none else held c') held c =
        if c ∈ l then none else held c := by
    intro l
    induction l with
    | nil => exact fun held => rfl
    | cons d l ih =>
      intro held
      rw [List.foldl_cons, ih]
      by_cases hc : c ∈ l
      · rw [if_pos hc, if_pos (List.mem_cons_of_mem _ hc)]
      · by_cases hd : c = d
        · rw [if_neg hc, if_pos hd, if_pos (hd ▸ List.mem_cons_self)]
        · rw [if_neg hc, if_neg hd, if_neg]
          exact fun hmem => (List.mem_cons.mp hmem).elim hd hc
  show (s.scopes i).bound.reverse.foldl _ s.held c = _
  rw [hfold]
  exact if_congr List.mem_reverse rfl rfl

/-- The scopes after one was released. -/
private theorem scopes_release (s : BindingScopes κ) (i j : ℕ) :
    (s.release i).scopes j = if j = i then .empty else s.scopes j := rfl

/-- A scope is released. -/
theorem ScopesSound.release (h : ScopesSound B (s, r)) (i : ℕ) :
    ScopesSound B (s.release i, fun j => if j = i then none else r j) := by
  refine ⟨fun j hj => ?_, fun j document services hj => ?_, fun c hc => ?_, fun c hc => ?_⟩
  · dsimp only at hj ⊢
    rw [scopes_release]
    by_cases hji : j = i
    · rw [if_pos hji]
    · rw [if_neg hji] at hj ⊢
      exact h.closed j hj
  · dsimp only at hj ⊢
    rw [scopes_release]
    by_cases hji : j = i
    · rw [if_pos hji] at hj
      cases hj
    · rw [if_neg hji] at hj ⊢
      exact h.once j _ _ hj
  · dsimp only at hc ⊢
    rw [held_release] at hc
    have hmem : c ∉ (s.scopes i).bound := fun hmem => hc (if_pos hmem)
    rw [if_neg hmem] at hc
    obtain ⟨j, hj⟩ := h.owned c hc
    have hji : j ≠ i := by
      rintro rfl
      exact hmem hj
    exact ⟨j, by rwa [scopes_release, if_neg hji]⟩
  · show (s.release i).held c = none
    rw [held_release, h.only c hc, ite_self]

/-- A scope that shares nothing leaves the other scopes attached when it is released. -/
theorem ScopesAttached.release (h : ScopesAttached B (s, r)) {i : ℕ}
    (hapart : ∀ j, j ≠ i → ∀ c ∈ (s.scopes i).bound, c ∉ (s.scopes j).bound) :
    ScopesAttached B (s.release i, fun j => if j = i then none else r j) := by
  intro j document services hj c hc
  dsimp only at hj hc ⊢
  rw [scopes_release] at hc
  by_cases hji : j = i
  · rw [if_pos hji] at hj
    cases hj
  · rw [if_neg hji] at hj hc
    rw [held_release, if_neg fun hmem => hapart j hji c hmem hc]
    exact h j _ _ hj c hc

omit [DecidableEq κ] in
/-- The scopes after one was moved. -/
private theorem scopes_transfer (s : BindingScopes κ) (into source j : ℕ) :
    (s.transfer into source).scopes j =
      if j = source then .empty else if j = into then s.scopes source else s.scopes j := rfl

omit [DecidableEq κ] in
/-- A scope is moved into one that is closed. -/
theorem ScopesSound.transfer (h : ScopesSound B (s, r)) {into source : ℕ} (hne : into ≠ source)
    (hclosed : s.scopes into = .empty) :
    ScopesSound B (s.transfer into source,
      fun j => if j = source then none else if j = into then r source else r j) := by
  refine ⟨fun j hj => ?_, fun j document services hj => ?_, fun c hc => ?_, h.only⟩
  · dsimp only at hj ⊢
    rw [scopes_transfer]
    by_cases hjs : j = source
    · rw [if_pos hjs]
    by_cases hji : j = into
    · rw [if_neg hjs, if_pos hji] at hj ⊢
      exact h.closed source hj
    · rw [if_neg hjs, if_neg hji] at hj ⊢
      exact h.closed j hj
  · dsimp only at hj ⊢
    rw [scopes_transfer]
    by_cases hjs : j = source
    · rw [if_pos hjs] at hj
      cases hj
    by_cases hji : j = into
    · rw [if_neg hjs, if_pos hji] at hj ⊢
      exact h.once source _ _ hj
    · rw [if_neg hjs, if_neg hji] at hj ⊢
      exact h.once j _ _ hj
  · obtain ⟨j, hj⟩ := h.owned c hc
    have hinto : j ≠ into := by
      rintro rfl
      rw [hclosed] at hj
      exact absurd hj List.not_mem_nil
    by_cases hjs : j = source
    · refine ⟨into, ?_⟩
      dsimp only
      rw [scopes_transfer, if_neg hne, if_pos rfl]
      exact hjs ▸ hj
    · refine ⟨j, ?_⟩
      dsimp only
      rwa [scopes_transfer, if_neg hjs, if_neg hinto]

omit [DecidableEq κ] in
/-- Moving a scope changes nothing about what is attached. -/
theorem ScopesAttached.transfer (h : ScopesAttached B (s, r)) (into source : ℕ) :
    ScopesAttached B (s.transfer into source,
      fun j => if j = source then none else if j = into then r source else r j) := by
  intro j document services hj c hc
  dsimp only at hj hc ⊢
  rw [scopes_transfer] at hc
  by_cases hjs : j = source
  · rw [if_pos hjs] at hj
    cases hj
  by_cases hji : j = into
  · rw [if_neg hjs, if_pos hji] at hj hc
    exact h source _ _ hj c hc
  · rw [if_neg hjs, if_neg hji] at hj hc
    exact h j _ _ hj c hc

omit [DecidableEq κ] in
/-- The origins after a scope was moved: first the target is released. -/
private theorem origins_move {into source : ℕ} (hne : into ≠ source) :
    (fun j => if j = source then none else if j = into then
      (if source = into then none else r source) else if j = into then none else r j) =
        (ScopeEvent.move into source).origins r := by
  funext j
  rw [if_neg hne.symm]
  show _ = (if into = source then r else _) j
  rw [if_neg hne]
  by_cases hjs : j = source
  · rw [if_pos hjs, if_pos hjs]
  by_cases hji : j = into
  · rw [if_neg hjs, if_neg hjs, if_pos hji, if_pos hji]
  · rw [if_neg hjs, if_neg hjs, if_neg hji, if_neg hji, if_neg hji]

variable [Fintype κ]

/-- A scope is bound. -/
theorem ScopesSound.bind (h : ScopesSound B (s, r)) {i : ℕ} {document : BoundDocument κ}
    {services : BindServices} (hempty : s.scopes i = .empty) :
    ScopesSound B (⟨(bindOperators B services document s.held).held, fun j =>
      if j = i then ⟨(bindOperators B services document s.held).bound, some services.pin⟩
      else s.scopes j⟩, fun j => if j = i then some (document, services) else r j) := by
  obtain ⟨hnodup, hmem, hheld⟩ := bindOperators_spec services document h.only
  generalize bindOperators B services document s.held = a at *
  refine ⟨fun j hj => ?_, fun j document' services' hj => ?_, fun c hc => ?_, fun c hc => ?_⟩
  · dsimp only at hj ⊢
    by_cases hji : j = i
    · rw [if_pos hji] at hj
      cases hj
    · rw [if_neg hji] at hj ⊢
      exact h.closed j hj
  · dsimp only at hj ⊢
    by_cases hji : j = i
    · rw [if_pos hji] at hj ⊢
      cases hj
      exact ⟨rfl, hnodup, hmem⟩
    · rw [if_neg hji] at hj ⊢
      exact h.once j _ _ hj
  · dsimp only at hc ⊢
    rw [hheld] at hc
    by_cases hbound : c ∈ a.bound
    · exact ⟨i, by rwa [if_pos rfl]⟩
    · rw [if_neg hbound] at hc
      obtain ⟨j, hj⟩ := h.owned c hc
      have hji : j ≠ i := by
        rintro rfl
        rw [hempty] at hj
        exact absurd hj List.not_mem_nil
      exact ⟨j, by rwa [if_neg hji]⟩
  · show a.held c = none
    rw [hheld]
    split
    · exact Binders.attachment_eq_none.mpr hc
    · exact h.only c hc

/-- A scope is bound over contents that no open scope has attached to other services. -/
theorem ScopesAttached.bind (h : ScopesAttached B (s, r)) (honly : OnlyBound B s.held) {i : ℕ}
    {document : BoundDocument κ} {services : BindServices}
    (hagree : ∀ j, ∀ c ∈ (s.scopes j).bound, document.Reaches B services c →
      s.held c = B.attachment services c) :
    ScopesAttached B (⟨(bindOperators B services document s.held).held, fun j =>
      if j = i then ⟨(bindOperators B services document s.held).bound, some services.pin⟩
      else s.scopes j⟩, fun j => if j = i then some (document, services) else r j) := by
  obtain ⟨-, hmem, hheld⟩ := bindOperators_spec services document honly
  generalize bindOperators B services document s.held = a at *
  intro j document' services' hj c hc
  dsimp only at hj hc ⊢
  by_cases hji : j = i
  · rw [if_pos hji] at hj hc
    cases hj
    rw [hheld, if_pos hc]
  · rw [if_neg hji] at hj hc
    rw [hheld]
    split
    case isTrue hbound =>
      rw [← hagree j c hc ((hmem c).mp hbound).1]
      exact h j _ _ hj c hc
    case isFalse => exact h j _ _ hj c hc

/-- Every step keeps scopes sound, and a step that agrees keeps them attached. -/
theorem ScopesSound.step (h : ScopesSound B p) (hs : (recordedScopes B).step e p = some p') :
    ScopesSound B p' ∧ (ScopesAgree B e p → ScopesAttached B p → ScopesAttached B p') := by
  obtain ⟨s, r⟩ := p
  obtain ⟨s', r'⟩ := p'
  obtain ⟨hs, rfl⟩ := Machine.observe_step_eq_some.mp hs
  cases e with
  | bind i document services =>
    simp only [bindingScopes] at hs
    split at hs
    case isTrue hempty =>
      cases hs
      exact ⟨h.bind hempty, fun hagree hattached => hattached.bind h.only hagree⟩
    case isFalse => cases hs
  | move into source =>
    simp only [bindingScopes] at hs
    by_cases heq : into = source
    · rw [if_pos heq] at hs
      cases hs
      have horigins : (ScopeEvent.move into source : ScopeEvent κ).origins r = r := if_pos heq
      dsimp only
      rw [horigins]
      exact ⟨h, fun _ hattached => hattached⟩
    · rw [if_neg heq] at hs
      cases hs
      have horigins := origins_move (r := r) heq
      dsimp only
      rw [← horigins]
      exact ⟨(h.release into).transfer heq (if_pos rfl), fun hagree hattached =>
        (hattached.release (hagree.resolve_left heq)).transfer into source⟩
  | release i =>
    simp only [bindingScopes] at hs
    cases hs
    exact ⟨h.release i, fun hagree hattached => hattached.release hagree⟩

private theorem start_sound (hp : (recordedScopes B).start p) :
    ScopesSound B p ∧ ScopesAttached B p := by
  obtain ⟨s, r⟩ := p
  obtain ⟨hs, hr⟩ := hp
  obtain rfl : s = ⟨fun _ => none, fun _ => .empty⟩ := hs
  obtain rfl : r = fun _ => none := hr
  exact ⟨⟨fun _ _ => rfl, nofun, fun c hc => absurd rfl hc, fun _ _ => rfl⟩, nofun⟩

/-- In any run a scope has bound what it reached, once, and what contents hold is gone with the last
scope. -/
theorem bindingScopes_sound (h : (recordedScopes B).Reachable Machine.anyEvent p) :
    ScopesSound B p ∧ ((∀ i, p.2 i = none) → ∀ c, p.1.held c = none) := by
  have hsound : ScopesSound B p :=
    h.invariant (fun p hp => (start_sound hp).1) fun p e p' hp _ hs => (hp.step hs).1
  refine ⟨hsound, fun hnone c => ?_⟩
  by_contra hheld
  obtain ⟨i, hi⟩ := hsound.owned c hheld
  rw [hsound.closed i (hnone i)] at hi
  exact absurd hi List.not_mem_nil

/-- A document of one content, a fade. -/
def fadeDocument : BoundDocument (Fin 1) := ⟨[some 0], fun _ _ => []⟩

/-- The binder of fades. -/
def fadeBinders : Binders (Fin 1) := ⟨[⟨fun _ => true, false⟩], []⟩

/-- The services of an export. -/
def exportServices : BindServices := ⟨1, 1, 7⟩

/-- The services of a frame. -/
def frameServices : BindServices := ⟨2, 2, 8⟩

end Scopes

end ArbitraryComposer
