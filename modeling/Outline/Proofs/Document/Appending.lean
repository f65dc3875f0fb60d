import Outline.Proofs.Document.Uniform
import Outline.Proofs.Forest.Related

/-!
# Appending to what is there

The children of a node before a document is appended to it play no part in what is appended,
unless the text starts indented: below the first name on, the document is built in lockstep with
the same document in a new forest, node by node and below nodes that correspond.
-/

namespace Outline.Document

open Forest Token Build

variable {base f f' g g' : Forest} {a b : NodeId} {x : NodeId × NodeId}
  {pairs pairs' : List (NodeId × NodeId)} {keys keys' : List NodeId} {v v' : Option Value}
  {c : Content} {content : String → String → Content} {convert : Convert} {p p' : Place} {t : Token}

/-! ## Values that stay -/

/-- A value has the content, and none of the nodes in `keys` is among those that it shows. -/
def Holds (f : Forest) (keys : List NodeId) (v : Option Value) (c : Content) : Prop :=
  ∃ (h : Forest) (low : Nat), Bears h low v c ∧ h.size ≤ f.size ∧ SameOn h f low h.size ∧
    ∀ k ∈ keys, low ≤ k → h.size ≤ k

/-- From `f` to `f'` nodes are added, and of the old ones only those in `keys` change. -/
structure Alters (keys : List NodeId) (f f' : Forest) : Prop where
  size_le : f.size ≤ f'.size
  same : ∀ i < f.size, i ∉ keys →
    f'.name i = f.name i ∧ f'.value i = f.value i ∧ f'.children i = f.children i

theorem Alters.of_grown (hf : Grown f f' root []) (keys : List NodeId) : Alters keys f f' :=
  ⟨hf.size_le, fun i hi _ => ⟨hf.name i hi, hf.value i hi, by simpa using hf.children i hi⟩⟩

theorem alters_setValue {id : NodeId} (hid : id ∈ keys) (f : Forest) (w : Option Value) :
    Alters keys f (f.setValue id w) := by
  refine ⟨by simp, fun i hi hnot => ⟨by simp, ?_, by simp⟩⟩
  rw [value_setValue, if_neg]
  rintro ⟨rfl, -⟩
  exact hnot hid

theorem alters_grow {q : NodeId} (hf : f.WellFormed) (hq : q < f.size) (hmem : q ∈ keys)
    (name : String) : Alters keys f (f.grow q name none) := by
  refine ⟨by simp, fun i hi hnot => ⟨?_, ?_, ?_⟩⟩
  · rw [name_grow, if_neg (Nat.ne_of_lt hi)]
  · rw [value_grow, if_neg (Nat.ne_of_lt hi)]
  · rw [hf.children_grow hq, if_neg fun (heq : i = q) => hnot (heq ▸ hmem), List.append_nil]

theorem Holds.alter (hv : Holds f keys v c) (hf : Alters keys f f')
    (hkeys : ∀ k ∈ keys', k ∈ keys ∨ f.size ≤ k) : Holds f' keys' v c := by
  obtain ⟨h, low, hb, hsize, hsame, hold⟩ := hv
  refine ⟨h, low, hb, hsize.trans hf.size_le, fun i hlow hi => ?_, fun k hk hlow => ?_⟩
  · have hnot : i ∉ keys := fun hmem => absurd hi (Nat.not_lt.mpr (hold i hmem hlow))
    obtain ⟨hn, hv, hc⟩ := hf.same i (Nat.lt_of_lt_of_le hi hsize) hnot
    obtain ⟨hn', hv', hc'⟩ := hsame i hlow hi
    exact ⟨hn.trans hn', hv.trans hv', hc.trans hc'⟩
  · rcases hkeys k hk with hk | hk
    · exact hold k hk hlow
    · exact hsize.trans hk

theorem Holds.bears (hv : Holds f keys v c) : ∃ low, Bears f low v c := by
  obtain ⟨h, low, hb, hsize, hsame, -⟩ := hv
  exact ⟨low, hb.congr hsize hsame⟩

theorem holds_of_bears {low : Nat} (hb : Bears f low v c) (hkeys : ∀ k ∈ keys, k < low) :
    Holds f keys v c :=
  ⟨f, low, hb, Nat.le_refl _, fun _ _ _ => ⟨rfl, rfl, rfl⟩, fun k hk hlow =>
    absurd hlow (Nat.not_le.mpr (hkeys k hk))⟩

theorem holds_plain (f : Forest) (keys : List NodeId) (hv : ∀ c, v ≠ some (.node c)) :
    Holds f keys v (.plain v) :=
  ⟨⟨#[]⟩, 0, ⟨rfl, hv⟩, Nat.zero_le _, fun i _ hi => absurd hi (Nat.not_lt_zero i),
    fun k _ _ => Nat.zero_le k⟩

/-! ## Nodes that correspond -/

/-- The nodes of a pair have the same name, the same content, and children in pairs. -/
structure Matched (a b : NodeId) (pairs : List (NodeId × NodeId)) (f g : Forest)
    (x : NodeId × NodeId) : Prop where
  lt : x.1 < f.size
  lt' : x.2 < g.size
  name : f.name x.1 = g.name x.2
  children : List.Forall₂ (fun c c' => (c, c') ∈ pairs) (f.children x.1) (g.children x.2)
  value : ∃ c, Holds f (((a, b) :: pairs).map (·.1)) (f.value x.1) c ∧
    Holds g (((a, b) :: pairs).map (·.2)) (g.value x.2) c

/-- What was added below `a` since `base` corresponds to what is below `b` in the other forest,
pair by pair. -/
structure Alongside (base : Forest) (a b : NodeId) (pairs : List (NodeId × NodeId))
    (f g : Forest) : Prop where
  lt : a < base.size
  grown : ∃ new, Grown base f a new ∧
    List.Forall₂ (fun c c' => (c, c') ∈ pairs) new (g.children b)
  wf' : g.WellFormed
  lt' : b < g.size
  fresh : ∀ x ∈ pairs, base.size ≤ x.1
  first : pairs ≠ [] → g.children b ≠ []
  matched : ∀ x ∈ pairs, Matched a b pairs f g x
  inj : ∀ x ∈ (a, b) :: pairs, ∀ y ∈ (a, b) :: pairs, x.1 = y.1 ↔ x.2 = y.2

namespace Alongside

theorem wf (h : Alongside base a b pairs f g) : f.WellFormed := by
  obtain ⟨new, hnew, -⟩ := h.grown
  exact hnew.wf

theorem pair_lt (h : Alongside base a b pairs f g) (hx : x ∈ (a, b) :: pairs) :
    x.1 < f.size ∧ x.2 < g.size := by
  rcases List.mem_cons.mp hx with rfl | hx
  · obtain ⟨new, hnew, -⟩ := h.grown
    exact ⟨Nat.lt_of_lt_of_le h.lt hnew.size_le, h.lt'⟩
  · exact ⟨(h.matched x hx).lt, (h.matched x hx).lt'⟩

theorem key_lt (h : Alongside base a b pairs f g) :
    (∀ k ∈ ((a, b) :: pairs).map (·.1), k < f.size) ∧
      ∀ k ∈ ((a, b) :: pairs).map (·.2), k < g.size := by
  refine ⟨fun k hk => ?_, fun k hk => ?_⟩
  · obtain ⟨x, hx, rfl⟩ := List.mem_map.mp hk
    exact (h.pair_lt hx).1
  · obtain ⟨x, hx, rfl⟩ := List.mem_map.mp hk
    exact (h.pair_lt hx).2

end Alongside

theorem alongside_start (hf : f.WellFormed) (ha : a < f.size) (hg : g.WellFormed) (hb : b < g.size)
    (hempty : g.children b = []) : Alongside f a b [] f g where
  lt := ha
  grown := ⟨[], .refl hf a, by rw [hempty]; exact .nil⟩
  wf' := hg
  lt' := hb
  fresh := by simp
  first h := absurd rfl h
  matched := by simp
  inj := by simp

theorem Alongside.read (h : Alongside base a b pairs f g) (hf : Grown f f' root [])
    (hg : Grown g g' root []) : Alongside base a b pairs f' g' := by
  obtain ⟨new, hnew, hpairs⟩ := h.grown
  exact {
    lt := h.lt
    grown := ⟨new, by simpa using hnew.trans (hf.detached (.inl rfl) a), by
      rwa [hg.children b h.lt', ite_self, List.append_nil]⟩
    wf' := hg.wf
    lt' := Nat.lt_of_lt_of_le h.lt' hg.size_le
    fresh := h.fresh
    first := fun hne => by
      rw [hg.children b h.lt', ite_self, List.append_nil]
      exact h.first hne
    matched := fun x hx => by
      obtain ⟨hlt, hlt', hname, hchildren, c, hv, hv'⟩ := h.matched x hx
      refine ⟨Nat.lt_of_lt_of_le hlt hf.size_le, Nat.lt_of_lt_of_le hlt' hg.size_le, ?_, ?_, c, ?_,
        ?_⟩
      · rw [hf.name _ hlt, hg.name _ hlt', hname]
      · simpa [hf.children _ hlt, hg.children _ hlt'] using hchildren
      · rw [hf.value _ hlt]
        exact hv.alter (.of_grown hf _) fun k hk => .inl hk
      · rw [hg.value _ hlt']
        exact hv'.alter (.of_grown hg _) fun k hk => .inl hk
    inj := h.inj }

theorem Alongside.setValue (h : Alongside base a b pairs f g) (hx : x ∈ pairs)
    (hv : ∃ c, Holds f (((a, b) :: pairs).map (·.1)) v c ∧
      Holds g (((a, b) :: pairs).map (·.2)) v' c) :
    Alongside base a b pairs (f.setValue x.1 v) (g.setValue x.2 v') := by
  have hmem := List.mem_cons_of_mem (a, b) hx
  have halters := alters_setValue (List.mem_map_of_mem (f := (·.1)) hmem) f v
  have halters' := alters_setValue (List.mem_map_of_mem (f := (·.2)) hmem) g v'
  obtain ⟨new, hnew, hpairs⟩ := h.grown
  exact {
    lt := h.lt
    grown := ⟨new, hnew.setValue (h.fresh x hx) v, by rwa [children_setValue]⟩
    wf' := h.wf'.setValue _ _
    lt' := by simpa using h.lt'
    fresh := h.fresh
    first := by simpa using h.first
    matched := fun y hy => by
      obtain ⟨hlt, hlt', hname, hchildren, c, hw, hw'⟩ := h.matched y hy
      refine ⟨by simpa using hlt, by simpa using hlt', by simpa using hname,
        by simpa using hchildren, ?_⟩
      have hiff := h.inj y (List.mem_cons_of_mem _ hy) x hmem
      rw [value_setValue, value_setValue]
      by_cases heq : y.1 = x.1
      · rw [if_pos ⟨heq, hlt⟩, if_pos ⟨hiff.mp heq, hlt'⟩]
        obtain ⟨c, hv, hv'⟩ := hv
        exact ⟨c, hv.alter halters fun k hk => .inl hk, hv'.alter halters' fun k hk => .inl hk⟩
      · rw [if_neg fun h => heq h.1, if_neg fun h => heq (hiff.mpr h.1)]
        exact ⟨c, hw.alter halters fun k hk => .inl hk, hw'.alter halters' fun k hk => .inl hk⟩
    inj := h.inj }

/-- The new nodes come last below both nodes of the pair `x`, and below no others. -/
theorem Alongside.below_grow (h : Alongside base a b pairs f g) (hx : x ∈ (a, b) :: pairs)
    {y : NodeId × NodeId} (hy : y ∈ (a, b) :: pairs) {l l' : List NodeId}
    (hl : List.Forall₂ (fun c c' => (c, c') ∈ pairs) l l') :
    List.Forall₂ (fun c c' => (c, c') ∈ pairs ++ [(f.size, g.size)])
      (l ++ if y.1 = x.1 then [f.size] else []) (l' ++ if y.2 = x.2 then [g.size] else []) := by
  refine List.rel_append (hl.imp fun _ _ hmem => List.mem_append_left _ hmem) ?_
  by_cases heq : y.1 = x.1
  · rw [if_pos heq, if_pos ((h.inj y hy x hx).mp heq)]
    exact .cons (by simp) .nil
  · rw [if_neg heq, if_neg fun heq' => heq ((h.inj y hy x hx).mpr heq')]
    exact .nil

theorem mem_keys_concat {π : NodeId × NodeId → NodeId} {k : NodeId}
    (hk : k ∈ ((a, b) :: (pairs ++ [x])).map π) : k ∈ ((a, b) :: pairs).map π ∨ π x ≤ k := by
  rw [← List.cons_append, List.map_append, List.mem_append] at hk
  exact hk.imp_right fun hk => Nat.le_of_eq (List.mem_singleton.mp hk).symm

theorem Alongside.matched_grow (h : Alongside base a b pairs f g) (hx : x ∈ (a, b) :: pairs)
    (name : String) {y : NodeId × NodeId} (hy : y ∈ pairs) :
    Matched a b (pairs ++ [(f.size, g.size)]) (f.grow x.1 name none) (g.grow x.2 name none) y := by
  obtain ⟨hq, hq'⟩ := h.pair_lt hx
  obtain ⟨hlt, hlt', hname, hchildren, c, hw, hw'⟩ := h.matched y hy
  refine ⟨by simpa using Nat.lt_succ_of_lt hlt, by simpa using Nat.lt_succ_of_lt hlt', ?_, ?_, c,
    ?_, ?_⟩
  · rw [name_grow, name_grow, if_neg (Nat.ne_of_lt hlt), if_neg (Nat.ne_of_lt hlt'), hname]
  · rw [h.wf.children_grow hq, h.wf'.children_grow hq']
    exact h.below_grow hx (List.mem_cons_of_mem _ hy) hchildren
  · rw [value_grow, if_neg (Nat.ne_of_lt hlt)]
    exact hw.alter (alters_grow h.wf hq (List.mem_map_of_mem hx) name) fun k => mem_keys_concat
  · rw [value_grow, if_neg (Nat.ne_of_lt hlt')]
    exact hw'.alter (alters_grow h.wf' hq' (List.mem_map_of_mem hx) name) fun k => mem_keys_concat

theorem Alongside.matched_new (h : Alongside base a b pairs f g) (hx : x ∈ (a, b) :: pairs)
    (name : String) : Matched a b (pairs ++ [(f.size, g.size)]) (f.grow x.1 name none)
      (g.grow x.2 name none) (f.size, g.size) := by
  obtain ⟨hq, hq'⟩ := h.pair_lt hx
  refine ⟨by simp, by simp, ?_, ?_, .plain none, ?_, ?_⟩
  · rw [name_grow, name_grow, if_pos rfl, if_pos rfl]
  · rw [h.wf.children_grow hq, h.wf'.children_grow hq', if_neg (Nat.ne_of_gt hq),
      if_neg (Nat.ne_of_gt hq'), children_of_size_le (Nat.le_refl _),
      children_of_size_le (Nat.le_refl _)]
    exact .nil
  · rw [value_grow, if_pos rfl]
    exact holds_plain _ _ fun c hc => by cases hc
  · rw [value_grow, if_pos rfl]
    exact holds_plain _ _ fun c hc => by cases hc

theorem Alongside.inj_concat (h : Alongside base a b pairs f g) :
    ∀ y ∈ (a, b) :: (pairs ++ [(f.size, g.size)]), ∀ z ∈ (a, b) :: (pairs ++ [(f.size, g.size)]),
      y.1 = z.1 ↔ y.2 = z.2 := by
  have hne : ∀ y ∈ (a, b) :: pairs, (y.1 = f.size ↔ y.2 = g.size) := fun y hy =>
    iff_of_false (Nat.ne_of_lt (h.pair_lt hy).1) (Nat.ne_of_lt (h.pair_lt hy).2)
  intro y hy z hz
  rw [← List.cons_append, List.mem_append, List.mem_singleton] at hy hz
  rcases hy with hy | rfl <;> rcases hz with hz | rfl
  · exact h.inj y hy z hz
  · exact hne y hy
  · rw [eq_comm, hne z hz, eq_comm]
  · simp

theorem Alongside.grow (h : Alongside base a b pairs f g) (hx : x ∈ (a, b) :: pairs)
    (name : String) : Alongside base a b (pairs ++ [(f.size, g.size)]) (f.grow x.1 name none)
      (g.grow x.2 name none) := by
  obtain ⟨hq, hq'⟩ := h.pair_lt hx
  obtain ⟨new, hgrown, hpairs⟩ := h.grown
  have hab := List.mem_cons_self (a := (a, b)) (l := pairs)
  exact {
    lt := h.lt
    grown := by
      refine ⟨new ++ if a = x.1 then [f.size] else [], ?_, ?_⟩
      · rcases List.mem_cons.mp hx with rfl | hmem
        · rw [if_pos rfl]
          exact hgrown.trans (.grow h.wf hq name none)
        · have hne : a ≠ x.1 := Nat.ne_of_lt (Nat.lt_of_lt_of_le h.lt (h.fresh x hmem))
          rw [if_neg hne, List.append_nil]
          exact hgrown.below (.grow h.wf hq name none) (h.fresh x hmem)
      · rw [h.wf'.children_grow hq']
        exact h.below_grow hx hab hpairs
    wf' := h.wf'.grow hq' name none
    lt' := by simpa using Nat.lt_succ_of_lt h.lt'
    fresh := by
      intro y hy
      rcases List.mem_append.mp hy with hy | hy
      · exact h.fresh y hy
      · obtain rfl := List.mem_singleton.mp hy
        exact hgrown.size_le
    first := by
      intro _
      rw [h.wf'.children_grow hq']
      by_cases hnil : pairs = []
      · subst hnil
        obtain rfl := List.mem_singleton.mp hx
        simp
      · exact fun heq => h.first hnil (List.append_eq_nil_iff.mp heq).1
    matched := by
      intro y hy
      rcases List.mem_append.mp hy with hy | hy
      · exact h.matched_grow hx name hy
      · obtain rfl := List.mem_singleton.mp hy
        exact h.matched_new hx name
    inj := h.inj_concat }

/-! ## Places that correspond -/

/-- The two nodes of a pair stand equally far below the containers, pair below pair. -/
inductive Depth (a b : NodeId) (pairs : List (NodeId × NodeId)) (f g : Forest) :
    Nat → NodeId → NodeId → Prop
  | top : Depth a b pairs f g 0 a b
  | down {n : Nat} {q q' c c' : NodeId} (hup : Depth a b pairs f g n q q') (hc : (c, c') ∈ pairs)
      (hq : f.parent c = some q) (hq' : g.parent c' = some q') : Depth a b pairs f g (n + 1) c c'

theorem Depth.mem {n : Nat} {q q' : NodeId} (h : Depth a b pairs f g n q q') :
    (q, q') ∈ (a, b) :: pairs := by
  cases h with
  | top => exact List.mem_cons_self
  | down _ hc => exact List.mem_cons_of_mem _ hc

theorem Depth.mono {n : Nat} {q q' : NodeId} (h : Depth a b pairs f g n q q')
    (hsub : pairs ⊆ pairs') (hf : ∀ x ∈ pairs, f'.parent x.1 = f.parent x.1)
    (hg : ∀ x ∈ pairs, g'.parent x.2 = g.parent x.2) : Depth a b pairs' f' g' n q q' := by
  induction h with
  | top => exact .top
  | down _ hc hq hq' ih =>
    exact .down ih (hsub hc) ((hf _ hc).trans hq) ((hg _ hc).trans hq')

theorem Depth.exists_ascend {n k : Nat} {q q' : NodeId} (h : Depth a b pairs f g (n + k) q q') :
    ∃ c c', ascend f k q = some c ∧ ascend g k q' = some c' ∧ Depth a b pairs f g n c c' := by
  induction k generalizing q q' with
  | zero => exact ⟨q, q', rfl, rfl, h⟩
  | succ k ih =>
    cases h with
    | down hup _ hq hq' =>
      obtain ⟨c, c', hc, hc', hd⟩ := ih hup
      exact ⟨c, c', by rw [ascend, hq, Option.bind_some, hc], by
        rw [ascend, hq', Option.bind_some, hc'], hd⟩

/-- Once a node was added, the last children below a pair are a pair. -/
theorem Alongside.getLast? (h : Alongside base a b pairs f g) (hne : pairs ≠ []) {n : Nat}
    {q q' : NodeId} (hd : Depth a b pairs f g n q q') :
    ((f.children q).getLast? = none ∧ (g.children q').getLast? = none) ∨
      ∃ c c', (f.children q).getLast? = some c ∧ (g.children q').getLast? = some c' ∧
        Depth a b pairs f g (n + 1) c c' := by
  have hlast : ((f.children q).getLast? = none ∧ (g.children q').getLast? = none) ∨
      ∃ c c', (f.children q).getLast? = some c ∧ (g.children q').getLast? = some c' ∧
        (c, c') ∈ pairs := by
    cases hd with
    | top =>
      obtain ⟨new, hgrown, hpairs⟩ := h.grown
      rcases rel_option_cases (rel_getLast? hpairs) with ⟨-, hnone⟩ | ⟨c, c', hc, hc', hmem⟩
      · exact absurd (List.getLast?_eq_none_iff.mp hnone) (h.first hne)
      · refine .inr ⟨c, c', ?_, hc', hmem⟩
        rw [hgrown.children a h.lt, if_pos rfl, List.getLast?_append, hc, Option.some_or]
    | down _ hmem => exact rel_option_cases (rel_getLast? (h.matched _ hmem).children)
  refine hlast.imp_right ?_
  rintro ⟨c, c', hc, hc', hmem⟩
  exact ⟨c, c', hc, hc', .down hd hmem (h.wf.mem_children.mp (List.mem_of_getLast? hc))
    (h.wf'.mem_children.mp (List.mem_of_getLast? hc'))⟩

/-- Both builds are at the same place. -/
structure Places (a b : NodeId) (pairs : List (NodeId × NodeId)) (f g : Forest) (p p' : Place) :
    Prop where
  parent : Depth a b pairs f g p.level p.parent p'.parent
  level : p'.level = p.level
  tag : p'.tag = p.tag
  previous : p'.previous = p.previous
  current : (p.current = none ∧ p'.current = none) ∨
    ∃ x ∈ pairs, p.current = some x.1 ∧ p'.current = some x.2

theorem places_start (a b : NodeId) (f g : Forest) :
    Places a b [] f g (.start a) (.start b) :=
  ⟨.top, rfl, rfl, rfl, .inl ⟨rfl, rfl⟩⟩

theorem Places.mono (hp : Places a b pairs f g p p') (hsub : pairs ⊆ pairs')
    (hf : ∀ x ∈ pairs, f'.parent x.1 = f.parent x.1)
    (hg : ∀ x ∈ pairs, g'.parent x.2 = g.parent x.2) : Places a b pairs' f' g' p p' where
  parent := hp.parent.mono hsub hf hg
  level := hp.level
  tag := hp.tag
  previous := hp.previous
  current := hp.current.imp_right fun ⟨x, hx, hcurrent⟩ => ⟨x, hsub hx, hcurrent⟩

theorem Places.reset (hp : Places a b pairs f g p p') :
    Places a b pairs f g (p.reset a) (p'.reset b) := by
  unfold Place.reset
  by_cases hk : p.previous = .lineBreak
  · rw [if_pos hk, if_pos (hp.previous.trans hk)]
    exact { hp with parent := .top, level := rfl }
  · rw [if_neg hk, if_neg (hp.previous ▸ hk)]
    exact hp

/-- Once a node was added, an indentation leads to the same place, or nowhere in both. -/
theorem Places.changeLevel (hp : Places a b pairs f g p p') (h : Alongside base a b pairs f g)
    (hne : pairs ≠ []) (t : Token) :
    (∃ e e', changeLevel f t p = .error e ∧ changeLevel g t p' = .error e') ∨
      ∃ q q', changeLevel f t p = .ok q ∧ changeLevel g t p' = .ok q' ∧
        Places a b pairs f g q q' := by
  unfold Document.changeLevel
  dsimp only
  rw [hp.level]
  by_cases hjump : p.level + 1 < t.text.length / 3
  · rw [if_pos hjump, if_pos hjump]
    exact .inl ⟨_, _, rfl, rfl⟩
  rw [if_neg hjump, if_neg hjump]
  by_cases hdown : t.text.length / 3 = p.level + 1
  · rw [if_pos hdown, if_pos hdown]
    rcases h.getLast? hne hp.parent with ⟨hc, hc'⟩ | ⟨c, c', hc, hc', hd⟩
    · rw [hc, hc']
      exact .inl ⟨_, _, rfl, rfl⟩
    · rw [hc, hc']
      exact .inr ⟨_, _, rfl, rfl, { hp with parent := hdown ▸ hd, level := rfl }⟩
  · rw [if_neg hdown, if_neg hdown]
    obtain ⟨k, hk⟩ : ∃ k, p.level = t.text.length / 3 + k :=
      ⟨p.level - t.text.length / 3, by omega⟩
    obtain ⟨c, c', hc, hc', hd⟩ := (hk ▸ hp.parent).exists_ascend
    rw [hk, Nat.add_sub_cancel_left, hc, hc']
    exact .inr ⟨_, _, rfl, rfl, { hp with parent := hd, level := rfl }⟩

/-! ## Two builds in lockstep -/

/-- Two builds go on alongside each other, or both break off. -/
inductive Both (base : Forest) (a b : NodeId) (started : Prop) :
    Except Error Place × Forest → Except Error Place × Forest → Prop
  | ok {pairs : List (NodeId × NodeId)} {f g : Forest} {p p' : Place}
      (h : Alongside base a b pairs f g) (hp : Places a b pairs f g p p')
      (hne : started → pairs ≠ []) : Both base a b started (.ok p, f) (.ok p', g)
  | error {e e' : Error} {f g : Forest} : Both base a b started (.error e, f) (.error e', g)

theorem Both.mono {started started' : Prop} {y y' : Except Error Place × Forest}
    (h : Both base a b started y y') (hs : started' → started) : Both base a b started' y y' := by
  cases h with
  | ok h hp hne => exact .ok h hp (hne ∘ hs)
  | error => exact .error

theorem both_name (h : Alongside base a b pairs f g) (hp : Places a b pairs f g p p')
    (ht : t.kind = .name) (started : Prop) :
    Both base a b started (accept convert false a p t f) (accept convert false b p' t g) := by
  rw [accept_name f ht, accept_name g ht]
  simp only [belowComment, Bool.false_and, Bool.false_eq_true, if_false]
  have hreset := hp.reset
  have hmem := hreset.parent.mem
  obtain ⟨hq, hq'⟩ := h.pair_lt hmem
  have hplaces : Places a b (pairs ++ [(f.size, g.size)])
      (f.grow (p.reset a).parent t.text none) (g.grow (p'.reset b).parent t.text none)
      (p.reset a) (p'.reset b) := hreset.mono (List.subset_append_left _ _)
    (fun x hx => by rw [h.wf.parent_grow hq, if_neg (Nat.ne_of_lt (h.matched x hx).lt)])
    (fun x hx => by rw [h.wf'.parent_grow hq', if_neg (Nat.ne_of_lt (h.matched x hx).lt')])
  refine .ok (h.grow hmem t.text) { hplaces with tag := rfl, previous := rfl, current := ?_ }
    fun _ => by simp
  exact .inr ⟨(f.size, g.size), by simp, rfl, rfl⟩

theorem Places.setValue (hp : Places a b pairs f g p p') (i j : NodeId) (v v' : Option Value) :
    Places a b pairs (f.setValue i v) (g.setValue j v') p p' :=
  hp.mono (List.Subset.refl _) (by simp) (by simp)

theorem alongside_emptyValue (h : Alongside base a b pairs f g) (hp : Places a b pairs f g p p') :
    Alongside base a b pairs (emptyValue f p) (emptyValue g p') ∧
      Places a b pairs (emptyValue f p) (emptyValue g p') p p' := by
  unfold emptyValue
  rcases hp.current with ⟨hc, hc'⟩ | ⟨x, hx, hc, hc'⟩
  · rw [hc, hc']
    exact ⟨h, hp⟩
  · rw [hc, hc']
    dsimp only
    rw [hp.previous]
    split
    · have hplain : ∀ c, some (Value.string "") ≠ some (.node c) := fun c hc => by cases hc
      exact ⟨h.setValue hx ⟨_, holds_plain f _ hplain, holds_plain g _ hplain⟩,
        hp.setValue _ _ _ _⟩
    · exact ⟨h, hp⟩

theorem both_value (hu : Uniform convert content) (h : Alongside base a b pairs f g)
    (hp : Places a b pairs f g p p') (ht : t.kind = .value) :
    Both base a b (pairs ≠ []) (accept convert false a p t f) (accept convert false b p' t g) := by
  rcases hp.current with ⟨hc, hc'⟩ | ⟨x, hx, hc, hc'⟩
  · rw [accept_value_none f ht hc, accept_value_none g ht hc']
    exact .ok h { hp with previous := rfl } id
  have hpending' : p'.pending = p.pending := by rw [Place.pending, hp.tag, Place.pending]
  cases hpending : p.pending with
  | none =>
    rw [accept_value_plain f ht hc hpending, accept_value_plain g ht hc' (hpending'.trans hpending)]
    have hplain : ∀ c, some (Value.string t.text) ≠ some (.node c) := fun c hc => by cases hc
    exact .ok (h.setValue hx ⟨_, holds_plain f _ hplain, holds_plain g _ hplain⟩)
      { hp.setValue _ _ _ _ with tag := rfl, previous := rfl } id
  | some tag =>
    rw [accept_value_typed f ht hc hpending, accept_value_typed g ht hc' (hpending'.trans hpending)]
    have hok := hu.uniform tag t.text h.wf h.wf'
    rcases hread : convert tag t.text f with ⟨_ | v, f₁⟩ <;>
      rcases hread' : convert tag t.text g with ⟨_ | v', g₁⟩ <;> rw [hread, hread'] at hok
    · exact .error
    · cases hok
    · cases hok
    · have hf := hu.adds tag t.text h.wf hread
      have hg := hu.adds tag t.text h.wf' hread'
      have hbears := hu.bears tag t.text h.wf hread
      have hbears' := hu.bears tag t.text h.wf' hread'
      have hplaces : Places a b pairs f₁ g₁ p p' := hp.mono (List.Subset.refl _)
        (fun y hy => hf.grown.parent _ (h.matched y hy).lt)
        (fun y hy => hg.grown.parent _ (h.matched y hy).lt')
      exact .ok ((h.read hf.grown hg.grown).setValue hx ⟨_, holds_of_bears hbears h.key_lt.1,
          holds_of_bears hbears' h.key_lt.2⟩)
        { hplaces.setValue _ _ _ _ with tag := rfl, previous := rfl } id

/-- Both builds take a token alike; before the first name that is no indentation. -/
theorem both_accept (hu : Uniform convert content) (h : Alongside base a b pairs f g)
    (hp : Places a b pairs f g p p') (hspace : t.kind = .space → pairs ≠ []) :
    Both base a b (pairs ≠ [] ∨ t.kind = .name) (accept convert false a p t f)
      (accept convert false b p' t g) := by
  have hplace : ∀ k : Kind, Both base a b (pairs ≠ [])
      (.ok { p with previous := k }, f) (.ok { p' with previous := k }, g) :=
    fun k => .ok h { hp with previous := rfl } id
  cases hk : t.kind with
  | name => exact both_name h hp hk _
  | separator =>
    rw [accept_separator f hk, accept_separator g hk]
    obtain ⟨hempty, hplaces⟩ := alongside_emptyValue h hp
    exact .ok hempty { hplaces with previous := rfl } (by simp)
  | type =>
    rw [accept_type f hk, accept_type g hk]
    exact .ok h { hp with tag := rfl, previous := rfl } (by simp)
  | value => exact (both_value hu h hp hk).mono (by simp)
  | space =>
    rw [accept_space f hk, accept_space g hk]
    rcases hp.changeLevel h (hspace hk) t with ⟨e, e', he, he'⟩ | ⟨q, q', hq, hq', hplaces⟩
    · rw [he, he']
      exact .error
    · rw [hq, hq']
      exact .ok h { hplaces with previous := rfl } (by simp)
  | lineBreak =>
    rw [accept_lineBreak f hk, accept_lineBreak g hk]
    exact (hplace .lineBreak).mono (by simp)
  | lineComment =>
    rw [accept_comment f (by rw [hk]; rfl), accept_comment g (by rw [hk]; rfl)]
    exact (hplace t.kind).mono (by simp)
  | blockComment =>
    rw [accept_comment f (by rw [hk]; rfl), accept_comment g (by rw [hk]; rfl)]
    exact (hplace t.kind).mono (by simp)

/-- Neither the first name nor a comment in front of it is indented; without a name, no comment
is. -/
def startsFlush (ts : List Token) : Bool :=
  (ts.find? fun t => t.kind == .space || t.kind == .name).all (·.kind == .name)

theorem both_run (hu : Uniform convert content) {ts : List Token}
    (h : Alongside base a b pairs f g) (hp : Places a b pairs f g p p')
    (hflush : pairs ≠ [] ∨ startsFlush ts = true) :
    Both base a b False (ts.foldlM (accept convert false a) p f)
      (ts.foldlM (accept convert false b) p' g) := by
  induction ts generalizing f g p p' pairs with
  | nil => exact .ok h hp False.elim
  | cons t ts ih =>
    have hspace : t.kind = .space → pairs ≠ [] := by
      refine fun hk => hflush.resolve_right fun hstart => ?_
      simp [startsFlush, hk] at hstart
    have hnext : (pairs ≠ [] ∨ t.kind = .name) ∨ startsFlush ts = true := by
      rcases hflush with hne | hstart
      · exact .inl (.inl hne)
      · by_cases hk : t.kind = .name
        · exact .inl (.inr hk)
        · refine .inr ?_
          by_cases hk' : t.kind = .space
          · simp [startsFlush, hk'] at hstart
          · simpa [startsFlush, hk, hk'] using hstart
    have hstep := both_accept hu h hp hspace
    rw [List.foldlM_cons, List.foldlM_cons, bind_apply, bind_apply]
    generalize accept convert false a p t f = y, accept convert false b p' t g = y' at hstep
    cases hstep with
    | ok h' hp' hne => exact ih h' hp' (hnext.imp_left hne)
    | error => exact .error

/-! ## Texts that start indented -/

theorem accept_unnamed (convert : Convert) (f : Forest) (hspace : t.kind ≠ .space)
    (hname : t.kind ≠ .name) (hcurrent : p.current = none) :
    ∃ q : Place, accept convert false a p t f = (.ok q, f) ∧ q.parent = p.parent ∧
      q.level = p.level ∧ q.current = none := by
  cases hk : t.kind with
  | name => exact absurd hk hname
  | space => exact absurd hk hspace
  | separator =>
    have hempty : emptyValue f p = f := by rw [emptyValue, hcurrent]
    exact ⟨{ p with previous := .separator }, by rw [accept_separator f hk, hempty], rfl, rfl,
      hcurrent⟩
  | type => exact ⟨_, accept_type f hk, rfl, rfl, hcurrent⟩
  | value => exact ⟨_, accept_value_none f hk hcurrent, rfl, rfl, hcurrent⟩
  | lineBreak => exact ⟨_, accept_lineBreak f hk, rfl, rfl, hcurrent⟩
  | lineComment => exact ⟨_, accept_comment f (by rw [hk]; rfl), rfl, rfl, hcurrent⟩
  | blockComment => exact ⟨_, accept_comment f (by rw [hk]; rfl), rfl, rfl, hcurrent⟩

theorem changeLevel_of_empty (ht : Proper t) (hk : t.kind = .space)
    (hempty : f.children p.parent = []) (hlevel : p.level = 0) :
    ∃ e, changeLevel f t p = .error e := by
  obtain ⟨level, hpos, htext⟩ := ht.space hk
  unfold changeLevel
  dsimp only
  rw [Indent.text_length htext, hlevel, hempty]
  by_cases hjump : 0 + 1 < level
  · exact ⟨_, if_pos hjump⟩
  · rw [if_neg hjump, if_pos (by omega)]
    exact ⟨_, rfl⟩

theorem run_of_not_startsFlush {ts : List Token} (hproper : ∀ t ∈ ts, Proper t)
    (hempty : f.children p.parent = []) (hlevel : p.level = 0) (hcurrent : p.current = none)
    (hstart : startsFlush ts = false) :
    ∃ e g, ts.foldlM (accept convert false a) p f = (.error e, g) := by
  induction ts generalizing p with
  | nil => simp [startsFlush] at hstart
  | cons t ts ih =>
    rw [List.foldlM_cons, bind_apply]
    by_cases hspace : t.kind = .space
    · obtain ⟨e, he⟩ := changeLevel_of_empty (hproper t (by simp)) hspace hempty hlevel
      rw [accept_space f hspace, he]
      exact ⟨e, f, rfl⟩
    · have hname : t.kind ≠ .name := fun hk => by simp [startsFlush, hk] at hstart
      obtain ⟨q, hq, hparent, hlevel', hcurrent'⟩ := accept_unnamed convert f hspace hname hcurrent
      rw [hq]
      exact ih (fun t ht => hproper t (by simp [ht])) (hparent ▸ hempty) (hlevel'.trans hlevel)
        hcurrent' (by simpa [startsFlush, hspace, hname] using hstart)

/-! ## What is appended -/

theorem Alongside.fresh_new (h : Alongside base a b pairs f g) {new new' : List NodeId}
    (hnew : List.Forall₂ (fun c c' => (c, c') ∈ pairs) new new') : ∀ id ∈ new, base.size ≤ id := by
  induction hnew with
  | nil => simp
  | cons hx _ ih => exact List.forall_mem_cons.mpr ⟨h.fresh _ hx, ih⟩

theorem Alongside.showsFrom (h : Alongside base a b pairs f g) {low : Nat} {ids ids' : List NodeId}
    {gr : Grove} (hs : ShowsFrom g low ids' gr)
    (hids : List.Forall₂ (fun c c' => (c, c') ∈ pairs) ids ids') : Shows f ids gr := by
  induction hs generalizing ids with
  | nil =>
    cases hids
    exact .nil
  | @plain y ids' ch sib _ _ hv _ _ ihch ihsib =>
    cases hids with
    | @cons x _ _ _ hx hrest =>
      obtain ⟨hlt, -, hname, hchildren, c, hw, hw'⟩ := h.matched _ hx
      obtain ⟨low', hbears⟩ := hw.bears
      obtain ⟨low'', hbears'⟩ := hw'.bears
      cases c with
      | nested inner =>
        obtain ⟨c, hc, -⟩ := hbears'
        exact absurd hc (hv c)
      | plain w =>
        have hvalue : f.value x = g.value y := hbears.1.trans hbears'.1.symm
        rw [← show f.name x = g.name y from hname, ← hvalue]
        exact .plain (Nat.zero_le _) hlt hbears.2 (ihch hchildren) (ihsib hrest)
  | @nested y c' ids' inner ch sib _ _ hv _ _ _ _ hinner _ _ _ ihch ihsib =>
    cases hids with
    | @cons x _ _ _ hx hrest =>
      obtain ⟨hlt, -, hname, hchildren, c, hw, hw'⟩ := h.matched _ hx
      obtain ⟨low', hbears⟩ := hw.bears
      obtain ⟨low'', hbears'⟩ := hw'.bears
      cases c with
      | plain w => exact absurd hv (hbears'.2 c')
      | nested inner' =>
        obtain ⟨d', hd', -, -, -, -, hshows'⟩ := hbears'
        obtain ⟨d, hd, -, hdlt, hdname, hdvalue, hshows⟩ := hbears
        obtain rfl := Value.node.inj (Option.some.inj (hv.symm.trans hd'))
        obtain rfl := hinner.unique hshows'
        rw [← show f.name x = g.name y from hname]
        exact .nested (Nat.zero_le _) hlt hd (Nat.zero_le _) hdlt hdname hdvalue hshows.shows
          (ihch hchildren) (ihsib hrest)

theorem exists_alongside (hu : Uniform convert content) (hf : f.WellFormed) (ha : a < f.size)
    {source : String} {ts : List Token} (ht : tokenize source = .ok ts)
    (hstart : startsFlush ts = true) (hrun : parseInto convert false source a f = (.ok (), g)) :
    ∃ pairs d, Alongside f a root pairs g d ∧ parse convert false source = .ok d := by
  have hboth := both_run hu (alongside_start hf ha wellFormed_empty wellFormed_empty.root_lt rfl)
    (places_start a root f Forest.empty) (.inr hstart)
  rw [parseInto_apply, ht] at hrun
  dsimp only at hrun
  rcases hx : buildTokens convert false a ts f with ⟨_ | p, k⟩ <;> rw [hx] at hrun
  · cases hrun
  obtain ⟨-, rfl⟩ := Prod.mk.inj hrun
  rw [buildTokens] at hx
  rcases hy : ts.foldlM (accept convert false root) (.start root) Forest.empty with
    ⟨_ | p', d⟩ <;> rw [hx, hy] at hboth
  · cases hboth
  have hd : parse convert false source = .ok d := by
    rw [parse, parseInto_apply, ht]
    dsimp only
    rw [buildTokens, hy]
    rfl
  cases hboth with
  | ok h => exact ⟨_, d, h, hd⟩

/-- Where a document can be appended, its top level comes behind the children that are there, all
else stays as it was, and the same trees make a document of their own: all that exactly if the
text does not start indented. -/
theorem parseInto_appends_iff {r : Registry} (hr : ∀ entry ∈ r.readers, UniformReader entry.2)
    (hf : f.WellFormed) (ha : a < f.size) {source : String} {ts : List Token}
    (ht : tokenize source = .ok ts) (hrun : parseInto r.convert false source a f = (.ok (), g)) :
    (∃ new gr d, Grown f g a new ∧ (∀ id ∈ new, f.size ≤ id) ∧ Shows g new gr ∧
        parse r.convert false source = .ok d ∧ Shows d (d.children root) gr) ↔
      startsFlush ts = true := by
  have hspells := spells_of_tokenize ht
  constructor
  · rintro ⟨-, -, d, -, -, -, hd, -⟩
    by_contra hstart
    obtain ⟨lines, hlines⟩ := hspells
    obtain ⟨e, k, he⟩ : ∃ e k, ts.foldlM (accept r.convert false root) (.start root) Forest.empty =
        (.error e, k) :=
      run_of_not_startsFlush hlines.proper rfl rfl rfl (by simpa using hstart)
    rw [parse, parseInto_apply, ht] at hd
    dsimp only at hd
    rw [buildTokens, he] at hd
    cases hd
  · intro hstart
    obtain ⟨content, hu⟩ := uniform_convert hr
    obtain ⟨pairs, d, h, hd⟩ := exists_alongside hu hf ha ht hstart hrun
    obtain ⟨lines, hlines⟩ := hspells
    obtain ⟨new', hplanted, -⟩ := planted_of_parse hu.toTidy ht hlines hd
    have hshows := hplanted.shows hu wellFormed_empty wellFormed_empty.root_lt rfl
    obtain ⟨new, hgrown, hpairs⟩ := h.grown
    exact ⟨new, _, d, hgrown, h.fresh_new hpairs, h.showsFrom hshows hpairs, hd, hshows.shows⟩

/-- A document is appended behind a child that is there; indented, it goes below that child. -/
theorem parseInto_appends_iff_child :
    let f := Forest.empty.grow root "x" none
    let convert := Registry.builtin.convert
    (∃ g, parseInto convert false "a\n   b:int:1" root f = (.ok (), g) ∧
      ∃ new gr d, Grown f g root new ∧ (∀ id ∈ new, f.size ≤ id) ∧ Shows g new gr ∧
        parse convert false "a\n   b:int:1" = .ok d ∧ Shows d (d.children root) gr) ∧
      ∃ g, parseInto convert false "   a" root f = (.ok (), g) ∧
        ¬ ∃ new gr d, Grown f g root new ∧ (∀ id ∈ new, f.size ≤ id) ∧ Shows g new gr ∧
          parse convert false "   a" = .ok d ∧ Shows d (d.children root) gr := by
  intro f convert
  have hf : f.WellFormed := wellFormed_empty.grow wellFormed_empty.root_lt "x" none
  have hrun : ∀ source, (parseInto convert false source root f).1.isOk = true →
      ∃ ts g, tokenize source = .ok ts ∧ parseInto convert false source root f = (.ok (), g) := by
    intro source hok
    rcases hx : parseInto convert false source root f with ⟨_ | _, g⟩
    · rw [hx] at hok
      cases hok
    cases ht : tokenize source with
    | error e =>
      rw [parseInto_apply, ht] at hx
      cases hx
    | ok ts => exact ⟨ts, g, rfl, rfl⟩
  have hflush : (tokenize "a\n   b:int:1").toOption.map startsFlush = some true := by
    decide +kernel
  have hindented : (tokenize "   a").toOption.map startsFlush = some false := by decide +kernel
  constructor
  · obtain ⟨ts, g, ht, hg⟩ := hrun "a\n   b:int:1" (by decide +kernel)
    rw [ht] at hflush
    exact ⟨g, hg, (parseInto_appends_iff uniformReader_builtin hf (by decide) ht hg).mpr
      (Option.some.inj hflush)⟩
  · obtain ⟨ts, g, ht, hg⟩ := hrun "   a" (by decide +kernel)
    rw [ht] at hindented
    refine ⟨g, hg, fun h => ?_⟩
    have hstart := (parseInto_appends_iff uniformReader_builtin hf (by decide) ht hg).mp h
    rw [Option.some.inj hindented] at hstart
    cases hstart

end Outline.Document
