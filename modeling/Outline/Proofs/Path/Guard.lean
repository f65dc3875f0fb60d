import Outline.Path.Evaluate
import Outline.Proofs.Forest.Older
import Outline.Proofs.Forest.Reachable

/-!
# The guard against circles is exact

Evaluation follows an expression at most once at a time: coming back to a node that is being
followed is an error. Next to it stand the same recursion without a bound on its depth, and the
recursion without the guard. The guard bounds the depth by the number of nodes, and it speaks up
exactly where the recursion without it would not end.
-/

namespace Outline

def Error.Circular (e : Error) : Prop := ∃ t, e = .circularExpression t

namespace Path

/-- An evaluation with a trail that may fail to end. -/
abbrev Attempt := ExceptT Error (StateT (List NodeId) Option)

abbrev Unguarded := ExceptT Error Option

/-- Run with `id` on the trail; it is taken off again whether the run fails or not. -/
def Attempt.following {α : Type} (id : NodeId) (x : Attempt α) : Attempt α := fun trail =>
  (x (id :: trail)).map fun (result, trail) => (result, trail.tail)

namespace World

variable (w : World)

/-- The text a node stands for, where the recursion does not end within `depth` calls: then
there is no result. -/
def stringifyGuarded : Nat → NodeId → Attempt String
  | 0, _ => fun _ => none
  | depth + 1, id =>
    match w.forest.value id with
    | none => return ""
    | some (.string s) => return s
    | some (.expression e) => do
      if (← get).contains id then throw (.circularExpression e.text)
      else Attempt.following id (w.followWith (stringifyGuarded depth) e id)
    | some value => return w.text value

def stringifyUnguarded : Nat → NodeId → Unguarded String
  | 0, _ => none
  | depth + 1, id =>
    match w.forest.value id with
    | none => return ""
    | some (.string s) => return s
    | some (.expression e) => w.followWith (stringifyUnguarded depth) e id
    | some value => return w.text value

def evaluateGuarded (depth : Nat) (e : Expression) (identity : NodeId) : Attempt (List NodeId) :=
  w.runWith (w.stringifyGuarded depth) identity e.steps [identity]

def evaluateUnguarded (depth : Nat) (e : Expression) (identity : NodeId) :
    Unguarded (List NodeId) :=
  w.runWith (w.stringifyUnguarded depth) identity e.steps [identity]

/-- Without the guard the recursion ends, with this result. -/
def Converges (e : Expression) (identity : NodeId) (r : Except Error (List NodeId)) : Prop :=
  ∃ depth, w.evaluateUnguarded depth e identity = some r

end World

/-! ## What evaluation does besides following -/

section Relates

variable {m n : Type → Type} [Monad m] [MonadExceptOf Error m] [Monad n] [MonadExceptOf Error n]

/-- Everything that evaluation does by itself keeps a relation between two ways to run it. The
error of the guard is not among that. -/
structure Relates (R : ∀ {α : Type}, m α → n α → Prop) : Prop where
  pure : ∀ {α : Type} (a : α), R (pure a : m α) (pure a)
  throw : ∀ {α : Type} {e : Error}, ¬ e.Circular → R (throw e : m α) (throw e)
  bind : ∀ {α β : Type} {x : m α} {y : n α} {k : α → m β} {l : α → n β},
    R x y → (∀ a, R (k a) (l a)) → R (x >>= k) (y >>= l)

variable {R : ∀ {α : Type}, m α → n α → Prop} {w : World} {s : NodeId → m String}
  {s' : NodeId → n String}

theorem not_circular_of_mapM_dereference {input : List NodeId} {e : Error}
    (h : input.mapM w.dereference = .error e) : ¬ e.Circular := by
  induction input with
  | nil => cases h
  | cons id input ih =>
    rw [List.mapM_cons] at h
    cases hd : w.dereference id with
    | error e' =>
      rw [hd] at h
      cases h
      rintro ⟨t, rfl⟩
      unfold World.dereference at hd
      split at hd <;> cases hd
    | ok a =>
      rw [hd] at h
      cases hm : input.mapM w.dereference with
      | error e' =>
        rw [hm] at h
        cases h
        exact ih hm
      | ok l =>
        rw [hm] at h
        cases h

namespace Relates

theorem applyWith (h : Relates (m := m) (n := n) R) (hs : ∀ id, R (s id) (s' id))
    (identity : NodeId) (step : Step) (input : List NodeId) :
    R (w.applyWith s identity step input) (w.applyWith s' identity step input) := by
  cases step with
  | dereference =>
    simp only [World.applyWith]
    cases hm : input.mapM w.dereference with
    | error e => exact h.throw (not_circular_of_mapM_dereference hm)
    | ok l => exact h.pure l
  | extrapolation index =>
    simp only [World.applyWith]
    cases (w.forest.children identity)[index]? with
    | none => exact h.throw (by rintro ⟨t, ht⟩; cases ht)
    | some source => exact h.bind (hs source) fun name => h.pure _
  | _ => exact h.pure _

theorem runWith (h : Relates (m := m) (n := n) R) (hs : ∀ id, R (s id) (s' id)) (identity : NodeId)
    (steps : List Step) (input : List NodeId) :
    R (w.runWith s identity steps input) (w.runWith s' identity steps input) := by
  induction steps generalizing input with
  | nil => exact h.pure _
  | cons step steps ih =>
    simp only [World.runWith]
    refine h.bind (h.applyWith hs identity step input) fun result => ?_
    split
    · exact h.pure _
    · exact ih result

theorem followWith (h : Relates (m := m) (n := n) R) (hs : ∀ id, R (s id) (s' id)) (e : Expression)
    (id : NodeId) : R (w.followWith s e id) (w.followWith s' e id) := by
  simp only [World.followWith]
  refine h.bind (h.runWith hs id e.steps [id]) fun result => ?_
  match result with
  | [] => exact h.pure _
  | [single] => exact hs single
  | _ :: _ :: _ => exact h.throw (by rintro ⟨t, ht⟩; cases ht)

end Relates
end Relates

/-! ## One call -/

section

variable {w : World} {id : NodeId} {e : Expression} {α β : Type} {t : List NodeId}

theorem Evaluation.bind_apply (x : Evaluation α) (k : α → Evaluation β) :
    (x >>= k) t = match x t with
      | (.ok a, t') => k a t'
      | (.error e, t') => (.error e, t') := by
  simp only [bind, ExceptT.bind, ExceptT.mk, StateT.bind]
  rcases x t with ⟨_ | _, t'⟩ <;> rfl

theorem Attempt.bind_apply (x : Attempt α) (k : α → Attempt β) :
    (x >>= k) t = match x t with
      | some (.ok a, t') => k a t'
      | some (.error e, t') => some (.error e, t')
      | none => none := by
  simp only [bind, ExceptT.bind, ExceptT.mk, StateT.bind]
  rcases x t with _ | ⟨_ | _, t'⟩ <;> rfl

theorem Unguarded.bind_eq_some {x : Unguarded α} {k : α → Unguarded β} {r : Except Error β} :
    (x >>= k) = some r ↔
      (∃ a, x = some (.ok a) ∧ k a = some r) ∨ ∃ e, x = some (.error e) ∧ r = .error e := by
  simp only [bind, ExceptT.bind, ExceptT.mk, Option.bind]
  rcases x with _ | e | a
  · simp
  · change some (Except.error e) = some r ↔ _
    constructor
    · intro h
      exact .inr ⟨e, rfl, (Option.some.inj h).symm⟩
    · rintro (⟨a, ha, -⟩ | ⟨e', he, rfl⟩)
      · cases ha
      · cases he
        rfl
  · change k a = some r ↔ _
    constructor
    · intro h
      exact .inl ⟨a, rfl, h⟩
    · rintro (⟨a', ha, hk⟩ | ⟨e', he, -⟩)
      · cases ha
        exact hk
      · cases he

def World.plainText (w : World) (id : NodeId) : String :=
  match w.forest.value id with
  | none => ""
  | some (.string s) => s
  | some value => w.text value

theorem stringify_plain (h : ∀ e, w.forest.value id ≠ some (.expression e)) (depth : Nat) :
    w.stringify depth id = pure (w.plainText id) ∧
      w.stringifyGuarded (depth + 1) id = pure (w.plainText id) ∧
      w.stringifyUnguarded (depth + 1) id = pure (w.plainText id) := by
  cases hv : w.forest.value id with
  | none =>
    simp only [World.stringify, World.stringifyGuarded, World.stringifyUnguarded, World.plainText,
      hv, and_self]
  | some v =>
    cases v with
    | expression e => exact absurd hv (h e)
    | _ =>
      simp only [World.stringify, World.stringifyGuarded, World.stringifyUnguarded,
        World.plainText, hv, and_self]

theorem stringify_of_mem (hv : w.forest.value id = some (.expression e)) (ht : id ∈ t)
    (depth : Nat) :
    w.stringify depth id t = (.error (.circularExpression e.text), t) ∧
      w.stringifyGuarded (depth + 1) id t = some (.error (.circularExpression e.text), t) := by
  have hget : (get : Evaluation (List NodeId)) t = (.ok t, t) := rfl
  have hget' : (get : Attempt (List NodeId)) t = some (.ok t, t) := rfl
  have hcon : t.contains id = true := by simpa using ht
  refine ⟨?_, ?_⟩
  · simp only [World.stringify, hv, Evaluation.bind_apply, hget, hcon, if_true]
    rfl
  · simp only [World.stringifyGuarded, hv, Attempt.bind_apply, hget', hcon, if_true]
    rfl

theorem stringify_zero (hv : w.forest.value id = some (.expression e)) :
    w.stringify 0 id t = (.error (.circularExpression e.text), t) := by
  have hget : (get : Evaluation (List NodeId)) t = (.ok t, t) := rfl
  simp only [World.stringify, hv, Evaluation.bind_apply, hget]
  split <;> rfl

theorem stringify_succ (hv : w.forest.value id = some (.expression e)) (ht : id ∉ t)
    (depth : Nat) :
    w.stringify (depth + 1) id t =
      ((w.followWith (w.stringify depth) e id (id :: t)).1,
        (w.followWith (w.stringify depth) e id (id :: t)).2.tail) := by
  have hget : (get : Evaluation (List NodeId)) t = (.ok t, t) := rfl
  have hcon : t.contains id = false := by simpa using ht
  simp only [World.stringify, hv, Evaluation.bind_apply, hget, hcon]
  rfl

theorem stringifyGuarded_succ (hv : w.forest.value id = some (.expression e)) (ht : id ∉ t)
    (depth : Nat) :
    w.stringifyGuarded (depth + 1) id t =
      (w.followWith (w.stringifyGuarded depth) e id (id :: t)).map
        fun (result, trail) => (result, trail.tail) := by
  have hget : (get : Attempt (List NodeId)) t = some (.ok t, t) := rfl
  have hcon : t.contains id = false := by simpa using ht
  simp only [World.stringifyGuarded, hv, Attempt.bind_apply, hget, hcon]
  rfl

theorem stringifyUnguarded_succ (hv : w.forest.value id = some (.expression e)) (depth : Nat) :
    w.stringifyUnguarded (depth + 1) id = w.followWith (w.stringifyUnguarded depth) e id := by
  simp only [World.stringifyUnguarded, hv]

/-! ## The trail -/

/-- A trail of different nodes that leaves room for at most `room` more. -/
structure Trail (w : World) (room : Nat) (t : List NodeId) : Prop where
  nodup : t.Nodup
  lt : ∀ i ∈ t, i < w.forest.size
  room_le : w.forest.size ≤ t.length + room

theorem Trail.nil (w : World) : Trail w w.forest.size [] := ⟨.nil, by simp, by simp⟩

/-- A node with an expression that is not on the trail yet takes up some of the room. -/
theorem Trail.push {room : Nat} (h : Trail w room t)
    (hv : w.forest.value id = some (.expression e)) (ht : id ∉ t) :
    ∃ rest, room = rest + 1 ∧ Trail w rest (id :: t) := by
  have hid : id < w.forest.size := by
    by_contra hge
    rw [Forest.value_of_size_le (Nat.le_of_not_lt hge)] at hv
    cases hv
  have hnodup : (id :: t).Nodup := List.nodup_cons.mpr ⟨ht, h.nodup⟩
  have hlt : ∀ i ∈ id :: t, i < w.forest.size := by
    intro i hi
    rcases List.mem_cons.mp hi with rfl | hi
    · exact hid
    · exact h.lt i hi
  have hlen := Forest.length_le_of_nodup hnodup hlt
  have hroom := h.room_le
  rw [List.length_cons] at hlen
  obtain ⟨rest, rfl⟩ : ∃ rest, room = rest + 1 := ⟨room - 1, by omega⟩
  exact ⟨rest, rfl, hnodup, hlt, by rw [List.length_cons]; omega⟩

/-! ## The bound is out of reach -/

/-- Where the trail leaves `room`, the evaluation ends, and its depth does not matter. It leaves
the trail as it was. -/
def Settles (w : World) (room : Nat) {α : Type} (x : Attempt α) (y : Evaluation α) : Prop :=
  ∀ t, Trail w room t → x t = some (y t) ∧ (y t).2 = t

theorem relates_settles (w : World) (room : Nat) :
    Relates (m := Attempt) (n := Evaluation) (Settles w room) where
  pure a t _ := ⟨rfl, rfl⟩
  throw _ t _ := ⟨rfl, rfl⟩
  bind {α β x y k l} hx hk t ht := by
    obtain ⟨heq, hrest⟩ := hx t ht
    rw [Attempt.bind_apply, Evaluation.bind_apply, heq]
    rcases hy : y t with ⟨_ | a, t'⟩ <;> rw [hy] at hrest <;> obtain rfl : t' = t := hrest
    · exact ⟨rfl, rfl⟩
    · exact hk a t' ht

theorem settles_stringify {room depth depth' : Nat} (hle : room ≤ depth) (hlt : room < depth')
    (id : NodeId) : Settles w room (w.stringifyGuarded depth' id) (w.stringify depth id) := by
  induction depth' generalizing room depth id with
  | zero => exact absurd hlt (Nat.not_lt_zero room)
  | succ depth' ih =>
    intro t ht
    by_cases hplain : ∀ e, w.forest.value id ≠ some (.expression e)
    · obtain ⟨h, h', -⟩ := stringify_plain hplain depth
      obtain ⟨-, h', -⟩ := stringify_plain hplain depth'
      rw [h, h']
      exact ⟨rfl, rfl⟩
    · obtain ⟨e, hv⟩ := not_forall_not.mp hplain
      by_cases hmem : id ∈ t
      · rw [(stringify_of_mem hv hmem depth).1, (stringify_of_mem hv hmem depth').2]
        exact ⟨rfl, rfl⟩
      · obtain ⟨rest, rfl, hpush⟩ := ht.push hv hmem
        obtain ⟨depth, rfl⟩ : ∃ d, depth = d + 1 := ⟨depth - 1, by omega⟩
        have hs : ∀ i, Settles w rest (w.stringifyGuarded depth' i) (w.stringify depth i) :=
          fun i => ih (by omega) (by omega) i
        obtain ⟨heq, hrest⟩ := (relates_settles w rest).followWith hs e id (id :: t) hpush
        rw [stringifyGuarded_succ hv hmem, stringify_succ hv hmem, heq]
        exact ⟨rfl, congrArg List.tail hrest⟩

/-- With the guard, the evaluation ends at every depth beyond the number of nodes, always in the
same way, and it leaves the trail empty. -/
theorem evaluateGuarded_eq {depth : Nat} (hd : w.forest.size < depth) (e : Expression)
    (id : NodeId) :
    w.evaluateGuarded depth e id [] = some (w.evaluate e id []) ∧ (w.evaluate e id []).2 = [] :=
  (relates_settles w w.forest.size).runWith
    (fun i => settles_stringify (Nat.le_refl _) hd i) id e.steps [id] [] (.nil w)

/-! ## Without the guard -/

/-- Evaluation without the guard ends in one way only, and never with the error of the guard. -/
theorem relates_unguarded : Relates (m := Unguarded) (n := Unguarded) fun {α} x y =>
    ∀ r : Except Error α, x = some r → y = some r ∧ ∀ e, r = .error e → ¬ e.Circular where
  pure a r h := by
    obtain rfl : Except.ok a = r := Option.some.inj h
    exact ⟨rfl, by simp⟩
  throw he r h := by
    obtain rfl : Except.error _ = r := Option.some.inj h
    exact ⟨rfl, fun e' h' => Except.error.inj h' ▸ he⟩
  bind {α β x y k l} hx hk r h := by
    rcases Unguarded.bind_eq_some.mp h with ⟨a, ha, h⟩ | ⟨e, he, rfl⟩
    · obtain ⟨hy, -⟩ := hx _ ha
      obtain ⟨hl, hr⟩ := hk a r h
      exact ⟨Unguarded.bind_eq_some.mpr (.inl ⟨a, hy, hl⟩), hr⟩
    · obtain ⟨hy, hr⟩ := hx _ he
      refine ⟨Unguarded.bind_eq_some.mpr (.inr ⟨e, hy, rfl⟩), fun e' h' => ?_⟩
      exact hr e' (congrArg _ (Except.error.inj h'))

theorem stringifyUnguarded_mono {depth : Nat} {r : Except Error String}
    (h : w.stringifyUnguarded depth id = some r) :
    w.stringifyUnguarded (depth + 1) id = some r ∧ ∀ e, r = .error e → ¬ e.Circular := by
  induction depth generalizing id r with
  | zero => cases h
  | succ depth ih =>
    by_cases hplain : ∀ e, w.forest.value id ≠ some (.expression e)
    · obtain ⟨-, -, hs⟩ := stringify_plain hplain depth
      obtain ⟨-, -, hs'⟩ := stringify_plain hplain (depth + 1)
      rw [hs] at h
      obtain rfl : Except.ok _ = r := Option.some.inj h
      exact ⟨hs', by simp⟩
    · obtain ⟨e, hv⟩ := not_forall_not.mp hplain
      rw [stringifyUnguarded_succ hv] at h ⊢
      exact relates_unguarded.followWith (fun i r h => ih h) e id r h

theorem evaluateUnguarded_mono {depth depth' : Nat} (hle : depth ≤ depth') {e : Expression}
    {r : Except Error (List NodeId)} (h : w.evaluateUnguarded depth e id = some r) :
    w.evaluateUnguarded depth' e id = some r ∧ ∀ e, r = .error e → ¬ e.Circular := by
  induction hle with
  | refl =>
    have hnext := relates_unguarded.runWith (fun i r h => stringifyUnguarded_mono h) id e.steps
      [id] r h
    exact ⟨h, hnext.2⟩
  | step _ ih =>
    exact relates_unguarded.runWith (fun i r h => stringifyUnguarded_mono h) id e.steps [id] r ih.1

/-- Unless the guard speaks up, the evaluation without it ends in the same way. -/
def Agrees {α : Type} (x : Evaluation α) (y : Unguarded α) : Prop :=
  ∀ t, (∃ e : Error, e.Circular ∧ (x t).1 = .error e) ∨ y = some (x t).1

theorem relates_agrees : Relates (m := Evaluation) (n := Unguarded) Agrees where
  pure a t := .inr rfl
  throw _ t := .inr rfl
  bind {α β x y k l} hx hk t := by
    rw [Evaluation.bind_apply]
    rcases hxt : x t with ⟨e | a, t'⟩
    · rcases hx t with ⟨e', hc, he⟩ | hy
      · exact .inl ⟨e, Except.error.inj (hxt ▸ he) ▸ hc, rfl⟩
      · rw [hxt] at hy
        exact .inr (Unguarded.bind_eq_some.mpr (.inr ⟨e, hy, rfl⟩))
    · rcases hx t with ⟨e', hc, he⟩ | hy
      · rw [hxt] at he
        cases he
      · rw [hxt] at hy
        rcases hk a t' with hc | hl
        · exact .inl hc
        · exact .inr (Unguarded.bind_eq_some.mpr (.inl ⟨a, hy, hl⟩))

theorem agrees_stringify {depth depth' : Nat} (hlt : depth < depth') (id : NodeId) :
    Agrees (w.stringify depth id) (w.stringifyUnguarded depth' id) := by
  induction depth' generalizing depth id with
  | zero => exact absurd hlt (Nat.not_lt_zero depth)
  | succ depth' ih =>
    intro t
    by_cases hplain : ∀ e, w.forest.value id ≠ some (.expression e)
    · obtain ⟨h, -, -⟩ := stringify_plain hplain depth
      obtain ⟨-, -, h'⟩ := stringify_plain hplain depth'
      rw [h, h']
      exact .inr rfl
    · obtain ⟨e, hv⟩ := not_forall_not.mp hplain
      by_cases hmem : id ∈ t
      · rw [(stringify_of_mem hv hmem depth).1]
        exact .inl ⟨_, ⟨_, rfl⟩, rfl⟩
      · cases depth with
        | zero =>
          rw [stringify_zero hv]
          exact .inl ⟨_, ⟨_, rfl⟩, rfl⟩
        | succ depth =>
          rw [stringify_succ hv hmem, stringifyUnguarded_succ hv]
          exact relates_agrees.followWith (fun i => ih (Nat.lt_of_succ_lt_succ hlt) i) e id _

/-- An evaluation that ends without the guard ends with it in the same way, as long as no node
on the trail is one that takes it at least as deep. -/
def Ends (w : World) (room depth : Nat) {α : Type} (x : Unguarded α) (y : Evaluation α) : Prop :=
  ∀ r, x = some r → ∀ t, Trail w room t → (∀ i ∈ t, w.stringifyUnguarded depth i = none) →
    y t = (r, t)

theorem relates_ends (w : World) (room depth : Nat) :
    Relates (m := Unguarded) (n := Evaluation) (Ends w room depth) where
  pure a r h t _ _ := by
    obtain rfl : Except.ok a = r := Option.some.inj h
    rfl
  throw _ r h t _ _ := by
    obtain rfl : Except.error _ = r := Option.some.inj h
    rfl
  bind {α β x y k l} hx hk r h t ht hnone := by
    rw [Evaluation.bind_apply]
    rcases Unguarded.bind_eq_some.mp h with ⟨a, ha, h⟩ | ⟨e, he, rfl⟩
    · rw [hx _ ha t ht hnone]
      exact hk a r h t ht hnone
    · rw [hx _ he t ht hnone]

/-- The induction is on the depth at which the recursion ends. A node that ends at a smaller
depth already is left to that depth, so that a node on the trail is never one that ended. -/
theorem ends_stringify {room depth depth' : Nat} (hle : room ≤ depth) (id : NodeId) :
    Ends w room depth' (w.stringifyUnguarded depth' id) (w.stringify depth id) := by
  induction depth' generalizing room depth id with
  | zero =>
    intro r h
    cases h
  | succ depth' ih =>
    intro r h t ht hnone
    have hbelow : ∀ i, w.stringifyUnguarded (depth' + 1) i = none →
        w.stringifyUnguarded depth' i = none := by
      intro i hi
      cases hd : w.stringifyUnguarded depth' i with
      | none => rfl
      | some r' =>
        rw [(stringifyUnguarded_mono hd).1] at hi
        cases hi
    by_cases hplain : ∀ e, w.forest.value id ≠ some (.expression e)
    · obtain ⟨hs, -, -⟩ := stringify_plain hplain depth
      obtain ⟨-, -, hs'⟩ := stringify_plain hplain depth'
      rw [hs'] at h
      rw [hs]
      obtain rfl : Except.ok _ = r := Option.some.inj h
      rfl
    · obtain ⟨e, hv⟩ := not_forall_not.mp hplain
      cases hd : w.stringifyUnguarded depth' id with
      | some r' =>
        have hsame := (stringifyUnguarded_mono hd).1
        rw [h] at hsame
        obtain rfl : r = r' := Option.some.inj hsame
        exact ih hle id r hd t ht fun i hi => hbelow i (hnone i hi)
      | none =>
        have hmem : id ∉ t := by
          intro hmem
          rw [hnone id hmem] at h
          cases h
        obtain ⟨rest, rfl, hpush⟩ := ht.push hv hmem
        obtain ⟨depth, rfl⟩ : ∃ d, depth = d + 1 := ⟨depth - 1, by omega⟩
        have hs : ∀ i, Ends w rest depth' (w.stringifyUnguarded depth' i) (w.stringify depth i) :=
          fun i => ih (by omega) i
        rw [stringifyUnguarded_succ hv] at h
        have hrun := (relates_ends w rest depth').followWith hs e id r h (id :: t) hpush
        rw [stringify_succ hv hmem, hrun]
        · rfl
        · intro i hi
          rcases List.mem_cons.mp hi with rfl | hi
          · exact hd
          · exact hbelow i (hnone i hi)

/-! ## With and without the guard -/

variable {r : Except Error (List NodeId)}

/-- The guarded recursion ends, and its bound is out of reach. -/
theorem evaluateGuarded_result {depth : Nat} (hd : w.forest.size < depth) (e : Expression)
    (id : NodeId) : w.evaluateGuarded depth e id [] = some ((w.evaluate e id).result, []) := by
  obtain ⟨heq, hrest⟩ := evaluateGuarded_eq hd e id
  rw [heq]
  exact congrArg some (Prod.ext rfl hrest)

theorem World.Converges.result (h : w.Converges e id r) : (w.evaluate e id).result = r := by
  obtain ⟨depth, h⟩ := h
  have hs : ∀ i, Ends w w.forest.size depth (w.stringifyUnguarded depth i)
      (w.stringify w.forest.size i) := fun i => ends_stringify (Nat.le_refl _) i
  have hrun := (relates_ends w w.forest.size depth).runWith hs id e.steps [id] r h [] (.nil w)
    (by simp)
  exact congrArg Prod.fst hrun

/-- The guard speaks up exactly where the recursion without it does not end. -/
theorem circular_iff_not_converges :
    (∃ c : Error, c.Circular ∧ (w.evaluate e id).result = .error c) ↔
      ¬ ∃ r, w.Converges e id r := by
  constructor
  · rintro ⟨c, hc, hres⟩ ⟨r, hr⟩
    have hsame := hr.result
    obtain ⟨depth, hdepth⟩ := hr
    exact (evaluateUnguarded_mono (Nat.le_refl depth) hdepth).2 c (hsame.symm.trans hres) hc
  · intro hnot
    have hs : ∀ i, Agrees (w.stringify w.forest.size i)
        (w.stringifyUnguarded (w.forest.size + 1) i) := fun i => agrees_stringify (by omega) i
    rcases relates_agrees.runWith hs id e.steps [id] [] with h | h
    · exact h
    · exact absurd ⟨_, w.forest.size + 1, h⟩ hnot

end
end Path
end Outline
