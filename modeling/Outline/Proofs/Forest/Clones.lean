import Mathlib.Data.Set.Card
import Mathlib.Data.Set.Finite.Lattice
import Mathlib.Order.Interval.Set.Nat
import Outline.Proofs.Forest.Mirror

/-!
# Clones

A node from which finitely many routes lead is cloned by as many new nodes: each of them stands
at the end of one route from the clone, and the same route leads from the original to the node
that it was made from. Only a value that is not equal to itself makes the two trees differ.
-/

namespace Outline

/-- A binary number that is no number. Nothing else is unequal to itself. -/
def Value.NaN : Value → Prop
  | .double x | .float x => x = .nan
  | _ => False

theorem Value.equal_self (v : Value) : v.equal v = true ↔ ¬ v.NaN := by
  cases v with
  | double x | float x => cases x <;> simp [Value.equal, Value.NaN, Binary.equal]
  | decimal d => simp [Value.equal, Value.NaN, Decimal.equal]
  | _ => simp [Value.equal, Value.NaN]

namespace Forest

variable {f g : Forest} {a b c id x y : NodeId} {t : Turn} {route : List Turn} {low n : Nat}

/-! ## Finitely many routes -/

/-- The routes that lead from a node somewhere, the one that stays there included. -/
def routes (f : Forest) (a : NodeId) : Set (List Turn) := {route | (f.follow a route).isSome}

/-- A circle can be gone round any number of times, so there is none where routes are few. -/
theorem not_circle_of_finite (hfin : (f.routes a).Finite) {way : List Turn}
    (hway : f.follow a way = some id) (hr : f.follow id route = some id) : route = [] := by
  by_contra hne
  have hrounds : ∀ k, f.follow id (List.replicate k route).flatten = some id := by
    intro k
    induction k with
    | zero => rfl
    | succ k ih =>
      rw [List.replicate_succ, List.flatten_cons, follow_append, hr, Option.bind_some, ih]
  have hmem : ∀ k, way ++ (List.replicate k route).flatten ∈ f.routes a := by
    intro k
    simp [routes, follow_append, hway, hrounds k]
  refine Set.infinite_of_injective_forall_mem (fun k k' h => ?_) hmem hfin
  have hlen := congrArg List.length h
  simp only [List.length_append, List.length_flatten, List.map_replicate, List.sum_replicate_nat,
    Nat.add_left_cancel_iff] at hlen
  exact Nat.eq_of_mul_eq_mul_right (List.length_pos_iff.mpr hne) hlen

/-- Where every turn leads down in some order of the nodes, no route goes in a circle. -/
theorem not_circle_of_rank (rank : NodeId → Nat)
    (hrank : ∀ {a t b}, f.turn a t = some b → rank b < rank a) (hr : f.follow a route = some a) :
    route = [] := by
  have hdown : ∀ {route a b}, f.follow a route = some b → rank b + route.length ≤ rank a := by
    intro route
    induction route with
    | nil =>
      intro a b h
      obtain rfl := Option.some.inj h
      exact Nat.le_refl _
    | cons t route ih =>
      intro a b h
      rw [follow, Option.bind_eq_some_iff] at h
      obtain ⟨c, hc, h⟩ := h
      have hturn := hrank hc
      have hrest := ih h
      rw [List.length_cons]
      omega
  have hlen := hdown hr
  exact List.length_eq_zero_iff.mp (by omega)

theorem Confined.shallow (ha : Confined f a) (hfin : (f.routes a).Finite) : Shallow f f.size a :=
  fun _ _ hr => ha.length_route_lt (fun _ _ _ hway => not_circle_of_finite hfin hway) hr

theorem finite_turns (f : Forest) (a : NodeId) : {t | (f.turn a t).isSome}.Finite := by
  have hplaces : (Turn.child '' Set.Iio (f.children a).length).Finite :=
    (Set.finite_Iio _).image _
  refine (hplaces.insert .inside).subset fun t ht => ?_
  cases t with
  | inside => exact Set.mem_insert _ _
  | child place =>
    have hlt : place < (f.children a).length := by
      obtain ⟨b, hb⟩ := Option.isSome_iff_exists.mp ht
      exact (List.getElem?_eq_some_iff.mp hb).1
    exact Set.mem_insert_of_mem _ ⟨place, hlt, rfl⟩

theorem Shallow.finite_routes (h : Shallow f n a) : (f.routes a).Finite := by
  induction n generalizing a with
  | zero => exact absurd h (not_shallow_zero f a)
  | succ n ih =>
    have hlater : (⋃ t ∈ {t | (f.turn a t).isSome},
        (t :: ·) '' {route | ∃ b, f.turn a t = some b ∧ route ∈ f.routes b}).Finite := by
      refine (finite_turns f a).biUnion fun t ht => Set.Finite.image _ ?_
      obtain ⟨b, hb⟩ := Option.isSome_iff_exists.mp ht
      refine (ih (h.turn hb)).subset ?_
      rintro route ⟨b', hb', hroute⟩
      obtain rfl := Option.some.inj (hb.symm.trans hb')
      exact hroute
    refine (hlater.insert []).subset fun route hroute => ?_
    cases route with
    | nil => exact Set.mem_insert _ _
    | cons t route =>
      obtain ⟨c, hc⟩ := Option.isSome_iff_exists.mp hroute
      rw [follow, Option.bind_eq_some_iff] at hc
      obtain ⟨b, hb, hc⟩ := hc
      refine Set.mem_insert_of_mem _ (Set.mem_biUnion (by simp [hb]) ⟨route, ⟨b, hb, ?_⟩, rfl⟩)
      simp [routes, hc]

/-- There are finitely many routes where no route goes in a circle, and only there. -/
theorem Confined.finite_routes_iff (ha : Confined f a) : (f.routes a).Finite ↔
    ∀ way id route, f.follow a way = some id → f.follow id route = some id → route = [] := by
  refine ⟨fun hfin _ _ _ hway hr => not_circle_of_finite hfin hway hr, fun hcircle => ?_⟩
  have hshallow : Shallow f f.size a := fun _ _ hr => ha.length_route_lt hcircle hr
  exact hshallow.finite_routes

theorem Confined.follow_eq (ha : Confined f a) {q : NodeId} (hg : Grown f g q [])
    (route : List Turn) : g.follow a route = f.follow a route := by
  induction route generalizing a with
  | nil => rfl
  | cons t route ih =>
    rw [follow, follow, hg.turn_eq ha.lt]
    cases ht : f.turn a t with
    | none => rfl
    | some b => exact ih (ha.turn ht)

/-! ## Routes in a copy -/

theorem isSome_container?_congr {v v' : Option Value}
    (h : v.map Value.outer = v'.map Value.outer) :
    (v.bind Value.container?).isSome = (v'.bind Value.container?).isSome := by
  cases v with
  | none =>
    rw [Option.map_none, eq_comm, Option.map_eq_none_iff] at h
    rw [h]
  | some v =>
    obtain ⟨v', rfl, hv⟩ := Option.map_eq_some_iff.mp h.symm
    rcases Value.outer_eq_or hv with rfl | ⟨c, c', rfl, rfl⟩
    · rfl
    · rfl

theorem CopyOf.rel_turn (h : CopyOf f g low x y) (t : Turn) :
    Option.Rel (CopyOf f g low) (f.turn x t) (g.turn y t) := by
  cases t with
  | child place => exact rel_getElem? h.children place
  | inside =>
    have hsome : (g.turn y .inside).isSome = (f.turn x .inside).isSome :=
      isSome_container?_congr h.outer_eq
    cases hx : f.turn x .inside with
    | none =>
      rw [hx, Option.isSome_none, Option.isSome_eq_false_iff, Option.isNone_iff_eq_none] at hsome
      rw [hsome]
      exact .none
    | some c =>
      rw [hx, Option.isSome_some, Option.isSome_iff_exists] at hsome
      obtain ⟨c', hy⟩ := hsome
      rw [hy]
      exact .some (h.turn hx hy)

theorem CopyOf.rel_follow (h : CopyOf f g low x y) (route : List Turn) :
    Option.Rel (CopyOf f g low) (f.follow x route) (g.follow y route) := by
  induction route generalizing x y with
  | nil => exact .some h
  | cons t route ih =>
    rw [follow, follow]
    rcases rel_option_cases (h.rel_turn t) with ⟨hx, hy⟩ | ⟨x', y', hx, hy, h'⟩
    · rw [hx, hy]
      exact .none
    · rw [hx, hy]
      exact ih h'

theorem CopyOf.routes_eq (h : CopyOf f g low x y) : g.routes y = f.routes x := by
  ext route
  rcases rel_option_cases (h.rel_follow route) with ⟨hx, hy⟩ | ⟨x', y', hx, hy, -⟩ <;>
    simp [routes, hx, hy]

/-- There are as many new nodes as there are routes from the topmost of them. -/
theorem Adds.size_eq (h : Adds f g [a]) : g.size = f.size + (g.routes a).ncard := by
  obtain ⟨hlow, hlt⟩ := h.fresh (b := a) (by simp)
  have himage : (fun route => (g.follow a route).getD root) '' g.routes a =
      Set.Ico f.size g.size := by
    ext i
    constructor
    · rintro ⟨route, hroute, rfl⟩
      obtain ⟨b, hb⟩ := Option.isSome_iff_exists.mp hroute
      simp only [hb, Option.getD_some]
      exact h.follow_new hlow hlt hb
    · rintro ⟨hi, hlt⟩
      obtain ⟨route, hroute, -⟩ := h.existsUnique_route_from hi hlt
      exact ⟨route, by simp [routes, hroute], by simp [hroute]⟩
  have hinj : Set.InjOn (fun route => (g.follow a route).getD root) (g.routes a) := by
    intro route hroute route' hroute' heq
    obtain ⟨b, hb⟩ := Option.isSome_iff_exists.mp hroute
    obtain ⟨b', hb'⟩ := Option.isSome_iff_exists.mp hroute'
    simp only [hb, hb', Option.getD_some] at heq
    subst heq
    obtain ⟨hb₀, hblt⟩ := h.follow_new hlow hlt hb
    exact (h.existsUnique_route_from hb₀ hblt).unique hb hb'
  have hcard := hinj.ncard_image
  rw [himage, Set.ncard_Ico_nat] at hcard
  have hle := h.grown.size_le
  omega

/-! ## Comparing with a copy -/

/-- No value that is reached from the node is unequal to itself. -/
def Regular (f : Forest) (a : NodeId) : Prop :=
  ∀ route x v, f.follow a route = some x → f.value x = some v → ¬ v.NaN

theorem forall_turn_iff {P : NodeId → Prop} : (∀ t b, f.turn a t = some b → P b) ↔
    (∀ c, f.turn a .inside = some c → P c) ∧ ∀ b ∈ f.children a, P b := by
  constructor
  · refine fun h => ⟨h .inside, fun b hb => ?_⟩
    obtain ⟨place, ht⟩ := exists_turn_of_mem_children hb
    exact h _ b ht
  · rintro ⟨hinside, hchildren⟩ t b ht
    cases t with
    | child place => exact hchildren b (List.mem_of_getElem? ht)
    | inside => exact hinside b ht

theorem regular_iff : f.Regular a ↔ (∀ v, f.value a = some v → ¬ v.NaN) ∧
    (∀ c, f.turn a .inside = some c → f.Regular c) ∧ ∀ b ∈ f.children a, f.Regular b := by
  rw [← forall_turn_iff]
  constructor
  · refine fun h => ⟨fun v hv => h [] a v rfl hv, fun t b ht route x v hx hv => ?_⟩
    exact h (t :: route) x v (by rw [follow, ht, Option.bind_some, hx]) hv
  · rintro ⟨hself, hlater⟩ route x v hx hv
    cases route with
    | nil =>
      obtain rfl := Option.some.inj hx
      exact hself v hv
    | cons t route =>
      rw [follow, Option.bind_eq_some_iff] at hx
      obtain ⟨b, hb, hx⟩ := hx
      exact hlater t b hb route x v hx hv

theorem Confined.regular_iff (ha : Confined f a) {q : NodeId} (hg : Grown f g q []) :
    g.Regular a ↔ f.Regular a := by
  refine forall₃_congr fun route x v => ?_
  rw [ha.follow_eq hg]
  refine forall_congr' fun hx => ?_
  rw [hg.value x (ha route x hx)]

theorem allPairs_iff {same : NodeId → NodeId → Bool} {R : NodeId → NodeId → Prop}
    {P : NodeId → Prop} {as bs : List NodeId} (h : List.Forall₂ R as bs)
    (hsame : ∀ x ∈ as, ∀ y, R x y → (same x y = true ↔ P x)) :
    allPairs same as bs = true ↔ ∀ x ∈ as, P x := by
  induction h with
  | nil => simp [allPairs]
  | @cons x y as bs hxy _ ih =>
    rw [allPairs, Bool.and_eq_true, hsame x (by simp) y hxy,
      ih fun x hx => hsame x (by simp [hx]), List.forall_mem_cons]

/-- A tree agrees with its copy unless one of its values is unequal to itself. -/
theorem sameTree_copy (hs : Shallow f n x) (h : CopyOf f f low x y) :
    sameTree f f n x y = true ↔ f.Regular x := by
  induction n generalizing x y with
  | zero => exact absurd hs (not_shallow_zero f x)
  | succ n ih =>
    have hchildren : allPairs (sameTree f f n) (f.children x) (f.children y) = true ↔
        ∀ b ∈ f.children x, f.Regular b :=
      allPairs_iff h.children fun b hb c hbc => ih (hs.child hb) hbc
    rw [regular_iff, ← and_assoc, ← hchildren, sameTree, h.name_eq, beq_self_eq_true,
      Bool.true_and, Bool.and_eq_true]
    refine and_congr_left fun _ => ?_
    rcases rel_option_cases (h.rel_turn .inside) with ⟨hx, hy⟩ | ⟨c, c', hx, hy, hc⟩
    · -- The values are the same, and no nested trees.
      rw [hx]
      rcases h.value with heq | ⟨c, c', hnode, -⟩
      · rw [← heq]
        cases hv : f.value x with
        | none => simp
        | some v =>
          cases v with
          | node c => simp [turn, hv, Value.container?] at hx
          | _ => simp [← Value.equal_self]
      · simp [turn, hnode, Value.container?] at hx
    · rw [hx, turn_inside.mp hx, turn_inside.mp hy]
      simp [ih (hs.turn hx) hc, Value.NaN]

/-! ## Clones -/

/-- From `f` to `g` a tree of new nodes was added. Its topmost node is `copy`, and it has a node
for each route that leads on from `a`. -/
structure Cloned (f g : Forest) (a copy : NodeId) : Prop where
  wf : g.WellFormed
  old : ∀ i < f.size, g.slot i = f.slot i
  parent : g.parent copy = none
  new : ∀ route x, g.follow copy route = some x → f.size ≤ x ∧ x < g.size
  unique : ∀ x, f.size ≤ x → x < g.size → ∃! route, g.follow copy route = some x
  size : g.size = f.size + (f.routes a).ncard

theorem Grown.slot_eq {q i : NodeId} (hg : Grown f g q []) (hi : i < f.size) :
    g.slot i = f.slot i := by
  have hname : (g.slot i).name = (f.slot i).name := hg.name i hi
  have hvalue : (g.slot i).value = (f.slot i).value := hg.value i hi
  have hchildren : (g.slot i).children = (f.slot i).children :=
    (hg.children i hi).trans (by rw [ite_self, List.append_nil]; rfl)
  have hparent : (g.slot i).parent = (f.slot i).parent := hg.parent i hi
  cases hf : f.slot i
  cases hg : g.slot i
  simp_all

theorem cloned_of_copies (hf : f.WellFormed) {copy : NodeId} (h : Copies f f a (copy, g)) :
    Cloned f g a copy where
  wf := h.1.grown.wf
  old i hi := h.1.grown.slot_eq hi
  parent := h.1.parent_eq_none hf
  new _ _ hx := h.1.follow_new (h.1.fresh (by simp)).1 (h.1.fresh (by simp)).2 hx
  unique x hx hlt := h.1.existsUnique_route_from hx hlt
  size := by rw [h.1.size_eq, h.2.routes_eq]

end Forest
end Outline
