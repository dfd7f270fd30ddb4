import Mathlib.Tactic.Common
import Posterior.Inference
import Posterior.Proofs.Restoration

/-!
# Scopes that are released in any order

Installing a handler gives a scope, which remembers what was active before. Scopes are meant to be
released the newest first, but a caller may hold several and release them as it likes. Each release
brings back what its own scope remembers, so what is left in the end is up to the scope that is
released last: nothing, if no handler was installed when that one was handed out.

The number of installed handlers never contradicts the active one, whatever the order.

## Main definitions

* `Router.Call` — installing a handler, or releasing a scope that is held
* `Router.Held` — a router together with the scopes that are held
* `Router.Held.calls?` — what a sequence of calls makes of it

## Main results

* `Router.Held.coherent_calls` — the depth, the active handler and the scopes agree with each other
* `Router.Held.stacked_calls` — scopes that are released the newest first lie on a stack
* `Router.Held.released_calls` — what is installed when every scope has been released
-/

namespace Posterior.Router

/-- What a caller does with scopes. -/
inductive Call where
  /-- Installs the handler with that number, and holds the scope. -/
  | install (handler : Nat)
  /-- Releases one of the scopes that are held, counted from the newest. -/
  | release (position : Nat)

/-- A scope is only released when it is the newest of those that are held. -/
def Call.IsNested : Call → Prop
  | install _ => True
  | release position => position = 0

/-- A router together with the scopes that have been handed out and not been released yet, the
newest first. -/
structure Held (X : Type) (S : Type → Type) (K : Type) where
  /-- The router. -/
  router : Router X S K
  /-- The scopes that are held. -/
  scopes : List Scope := []

namespace Held

variable {X : Type} {S : Type → Type} {K : Type} [Handler X S]

/-- Installs a handler that is in use, or releases a scope that is held. -/
def call? (s : Held X S K) : Call → Option (Held X S K)
  | .install i =>
    if i < s.router.cells.size then
      some ⟨(s.router.install i).2, (s.router.install i).1 :: s.scopes⟩
    else none
  | .release position =>
    match s.scopes[position]? with
    | some scope => some ⟨s.router.release scope, s.scopes.eraseIdx position⟩
    | none => none

/-- Calls, one after the other. -/
def calls? (s : Held X S K) : List Call → Option (Held X S K)
  | [] => some s
  | c :: cs =>
    match s.call? c with
    | some s => s.calls? cs
    | none => none

variable {s t : Held X S K} {c : Call} {cs : List Call}

/-! ### One call -/

/-- A call installs a handler on top of what is active, or brings back what a scope remembers. -/
theorem call?_eq_some (h : s.call? c = some t) :
    (∃ i es, i < s.router.cells.size ∧ c = .install i ∧
      t.router = { s.router with active := some i, depth := s.router.depth + 1, events := es } ∧
      t.scopes = ⟨s.router.active, s.router.depth + 1, s.router.nameOf i⟩ :: s.scopes) ∨
    ∃ position scope es, c = .release position ∧ s.scopes[position]? = some scope ∧
      t.router = { s.router with
        active := scope.previous, depth := scope.depth - 1, events := es } ∧
      t.scopes = s.scopes.eraseIdx position := by
  cases c with
  | install i =>
    rw [call?] at h
    split at h
    · next inUse =>
      obtain rfl := Option.some.inj h
      exact .inl ⟨i, _, inUse, rfl, rfl, rfl⟩
    · cases h
  | release position =>
    rw [call?] at h
    split at h
    · next scope held =>
      obtain rfl := Option.some.inj h
      obtain ⟨es, released⟩ := s.router.release_eq scope
      exact .inr ⟨position, scope, es, rfl, held, released, rfl⟩
    · cases h

/-! ### Any order -/

/-- A handler that is remembered as active is in use, and it is there if and only if the depth is
not zero. -/
structure Agrees (size : Nat) (active : Option Nat) (depth : Nat) : Prop where
  none_iff : active = none ↔ depth = 0
  inUse : ∀ i, active = some i → i < size

/-- The active handler agrees with the depth, and so does what each scope remembers. -/
structure Coherent (s : Held X S K) : Prop where
  router : Agrees s.router.cells.size s.router.active s.router.depth
  scopes : ∀ scope ∈ s.scopes,
    0 < scope.depth ∧ Agrees s.router.cells.size scope.previous (scope.depth - 1)

theorem Coherent.isDefault_iff (h : s.Coherent) :
    s.router.view.isDefault = true ↔ s.router.view.depth = 0 := by
  refine Iff.trans ?_ h.router.none_iff
  change s.router.current.isNone = true ↔ _
  rw [Option.isNone_iff_eq_none]
  cases active : s.router.active with
  | none => simp [current, active]
  | some i =>
    have inside := h.router.inUse i active
    simp [current, active, Array.getElem?_eq_getElem inside]

/-- A call keeps them in agreement, also one that releases a scope which is not the newest. -/
theorem Coherent.call (h : s.Coherent) (made : s.call? c = some t) : t.Coherent := by
  rcases call?_eq_some made with ⟨i, es, inUse, -, router, scopes⟩ |
    ⟨position, scope, es, -, held, router, scopes⟩
  · have installed : Agrees s.router.cells.size (some i) (s.router.depth + 1) :=
      ⟨by simp, fun j same => Option.some.inj same ▸ inUse⟩
    refine ⟨by rw [router]; exact installed, fun scope hs => ?_⟩
    rw [router]
    rw [scopes] at hs
    rcases List.mem_cons.1 hs with rfl | hs
    · exact ⟨Nat.succ_pos _, h.router⟩
    · exact h.scopes scope hs
  · have remembered := h.scopes scope (List.mem_of_getElem? held)
    refine ⟨by rw [router]; exact remembered.2, fun other hs => ?_⟩
    rw [router]
    rw [scopes] at hs
    exact h.scopes other (List.mem_of_mem_eraseIdx hs)

theorem coherent_calls (h : s.Coherent) (made : s.calls? cs = some t) : t.Coherent := by
  induction cs generalizing s with
  | nil =>
    obtain rfl := Option.some.inj made
    exact h
  | cons c cs ih =>
    rw [calls?] at made
    split at made
    · next q first => exact ih (h.call first) made
    · cases made

/-! ### The newest first -/

/-- Releasing the scopes in order leads back to the depth zero without an active handler: each of
them remembers what the next one finds. -/
def Stacked (active : Option Nat) (depth : Nat) : List Scope → Prop
  | [] => active = none ∧ depth = 0
  | scope :: scopes => depth = scope.depth ∧ Stacked scope.previous (scope.depth - 1) scopes

/-- A scope is put on the stack, or the one on top is taken. -/
theorem stacked_call (h : Stacked s.router.active s.router.depth s.scopes) (nested : c.IsNested)
    (made : s.call? c = some t) : Stacked t.router.active t.router.depth t.scopes := by
  rcases call?_eq_some made with ⟨i, es, -, -, router, scopes⟩ |
    ⟨position, scope, es, rfl, held, router, scopes⟩
  · rw [router, scopes]
    exact ⟨rfl, h⟩
  · obtain rfl : position = 0 := nested
    rw [router, scopes]
    cases stack : s.scopes with
    | nil => simp [stack] at held
    | cons top rest =>
      rw [stack] at h held
      obtain rfl : top = scope := by simpa using held
      exact h.2

theorem stacked_calls (h : Stacked s.router.active s.router.depth s.scopes)
    (nested : ∀ c ∈ cs, c.IsNested) (made : s.calls? cs = some t) :
    Stacked t.router.active t.router.depth t.scopes := by
  induction cs generalizing s with
  | nil =>
    obtain rfl := Option.some.inj made
    exact h
  | cons c cs ih =>
    obtain ⟨first, rest⟩ := List.forall_mem_cons.1 nested
    rw [calls?] at made
    split at made
    · next q called => exact ih (stacked_call h first called) rest made
    · cases made

/-! ### All scopes released -/

theorem calls?_append_singleton (before : List Call) (c : Call) :
    s.calls? (before ++ [c]) = (s.calls? before).bind fun q => q.call? c := by
  induction before generalizing s with
  | nil =>
    change s.calls? [c] = s.call? c
    rw [calls?]
    cases s.call? c <;> rfl
  | cons b before ih =>
    rw [List.cons_append, calls?, calls?]
    cases s.call? b with
    | none => rfl
    | some q => exact ih

/-- The call after which no scope is held releases the only one that was left. -/
theorem eq_release_of_scopes_nil (made : s.call? c = some t) (all : t.scopes = []) :
    ∃ scope, c = .release 0 ∧ s.scopes = [scope] ∧ t.router = s.router.release scope := by
  cases c with
  | install i =>
    rw [call?] at made
    split at made
    · obtain rfl := Option.some.inj made
      cases all
    · cases made
  | release position =>
    rw [call?] at made
    split at made
    · next scope held =>
      obtain rfl := Option.some.inj made
      obtain ⟨inside, found⟩ := List.getElem?_eq_some_iff.1 held
      -- Nothing is left after one scope has been taken out, so there was one.
      have single : s.scopes.length = 1 := by
        have length := List.length_eraseIdx_of_lt inside
        rw [show s.scopes.eraseIdx position = [] from all, List.length_nil] at length
        omega
      obtain ⟨only, scopes⟩ := List.length_eq_one_iff.1 single
      obtain rfl : position = 0 := by omega
      obtain rfl : only = scope := by simpa [scopes] using found
      exact ⟨only, rfl, scopes, rfl⟩
    · cases made

/-- Scopes may be released in any order, starting without a handler. The depth is zero exactly when
no handler is installed. When all scopes have been released, nothing is installed if and only if the
last of them was handed out while nothing was; and that is so if each of them was the newest when it
was released. -/
theorem released_calls {r : Router X S K} (inactive : r.active = none) (depth : r.depth = 0)
    (made : calls? ⟨r, []⟩ cs = some t) :
    (t.router.view.isDefault = true ↔ t.router.view.depth = 0) ∧
    (cs ≠ [] → t.scopes = [] → ∃ before q scope, cs = before ++ [.release 0] ∧
      calls? ⟨r, []⟩ before = some ⟨q, [scope]⟩ ∧ t.router = q.release scope ∧
      (scope.depth = 1 ↔ scope.previous = none) ∧
      (t.router.view.isDefault = true ∧ t.router.view.depth = 0 ↔ scope.previous = none)) ∧
    ((∀ c ∈ cs, c.IsNested) → t.scopes = [] →
      t.router.view.isDefault = true ∧ t.router.view.depth = 0) := by
  have start : (⟨r, []⟩ : Held X S K).Coherent :=
    ⟨⟨by simp [inactive, depth], by simp [inactive]⟩, by simp⟩
  have coherent := coherent_calls start made
  refine ⟨coherent.isDefault_iff, fun some all => ?_, fun nested all => ?_⟩
  -- The last call has released the one scope that was left, and brought back what that remembers.
  · obtain ⟨before, c, rfl⟩ := (List.eq_nil_or_concat cs).resolve_left some
    rw [List.concat_eq_append, calls?_append_singleton] at made
    obtain ⟨q, earlier, last⟩ := Option.bind_eq_some_iff.1 made
    obtain ⟨scope, rfl, left, released⟩ := eq_release_of_scopes_nil last all
    obtain ⟨pos, agrees⟩ := (coherent_calls start earlier).scopes scope (by simp [left])
    have remembered : scope.depth = 1 ↔ scope.previous = none := by
      rw [agrees.none_iff]
      omega
    have brought : t.router.view.depth = scope.depth - 1 := by
      obtain ⟨es, after⟩ := q.router.release_eq scope
      rw [released, after]
      rfl
    refine ⟨before, q.router, scope, List.concat_eq_append, ?_, released, remembered, ?_⟩
    · rw [earlier, ← left]
    · rw [coherent.isDefault_iff, and_self, brought, agrees.none_iff]
  -- An empty stack of scopes stands at the depth zero.
  · have stacked := stacked_calls (s := ⟨r, []⟩) ⟨inactive, depth⟩ nested made
    rw [all] at stacked
    have zero : t.router.view.depth = 0 := stacked.2
    exact ⟨coherent.isDefault_iff.2 zero, zero⟩

/-! ### Two handlers -/

/-- A router with two handlers in use, neither of which is installed. -/
def twoSamplers : Router Float (Strategies Float (NoOther Float)) Unit where
  cells := #[{ handler := .sampler ⟨.ofWords #[]⟩ }, { handler := .sampler ⟨.ofWords #[]⟩ }]
  source := .ofWords #[]

/-- The scopes are not released the newest first, but the last one to be released is the one that
was handed out while nothing was installed. -/
theorem released_calls_outermost_last :
    ∃ t, calls? ⟨twoSamplers, []⟩
        [.install 0, .install 1, .install 0, .release 1, .release 0, .release 0] = some t ∧
      t.scopes = [] ∧ t.router.view.isDefault = true ∧ t.router.view.depth = 0 := by
  obtain ⟨t, made, all⟩ : ∃ t, calls? ⟨twoSamplers, []⟩
      [.install 0, .install 1, .install 0, .release 1, .release 0, .release 0] = some t ∧
        t.scopes = [] := ⟨_, rfl, rfl⟩
  obtain ⟨-, last, -⟩ := released_calls rfl rfl made
  obtain ⟨before, q, scope, calls, earlier, -, -, nothing⟩ := last (List.cons_ne_nil _ _) all
  have parts : [Call.install 0, .install 1, .install 0, .release 1, .release 0] ++ [.release 0] =
      before ++ [.release 0] := calls
  obtain ⟨rfl, -⟩ := List.append_inj' parts rfl
  have left : some [⟨none, 1, "default"⟩] = some [scope] :=
    congrArg (Option.map Held.scopes) earlier
  obtain rfl : ⟨none, 1, "default"⟩ = scope := by simpa using left
  exact ⟨t, made, all, nothing.2 rfl⟩

/-- The scope of the handler below is released before the one above it, which brings the handler
below back: it stays installed, and there is no scope left to release. -/
theorem installed_of_outermost_first :
    ∃ t, calls? ⟨twoSamplers, []⟩ [.install 0, .install 1, .release 1, .release 0] = some t ∧
      t.scopes = [] ∧ t.router.active = some 0 ∧ t.router.view.isDefault = false ∧
      t.router.view.depth = 1 :=
  ⟨_, rfl, rfl, rfl, rfl, rfl⟩

end Held

end Posterior.Router
