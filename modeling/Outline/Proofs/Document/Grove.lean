import Mathlib.Tactic.Common
import Outline.Document.Builtin
import Outline.Document.Print
import Outline.Forest.Copy
import Outline.Proofs.Forest.Walk
import Outline.Proofs.Value.Equal

/-!
# Groves

A grove is a list of trees as a document shows it: names and values, and in place of the handle
of a nested tree that tree itself. Printing and comparing depend on nothing else. What a forest
shows below some nodes has no more levels than the forest has nodes, so the bounds of the walks
over it are out of reach.
-/

namespace Outline.Document

open Forest

/-- Trees side by side. A nested tree stands with the node that holds it. -/
inductive Grove
  | nil
  | plain (name : String) (value : Option Value) (children siblings : Grove)
  | nested (name : String) (inner children siblings : Grove)

namespace Grove

/-- How many levels there are; a nested tree begins two levels below its node. -/
def height : Grove → Nat
  | nil => 0
  | plain _ _ children siblings => max (children.height + 1) siblings.height
  | nested _ inner children siblings =>
    max (max (inner.height + 2) (children.height + 1)) siblings.height

/-- How many nodes there are, containers included. -/
def count : Grove → Nat
  | nil => 0
  | plain _ _ children siblings => children.count + siblings.count + 1
  | nested _ inner children siblings => inner.count + children.count + siblings.count + 2

/-- Every value that is no nested tree has the property. -/
def All (P : Value → Prop) : Grove → Prop
  | nil => True
  | plain _ value children siblings =>
    (∀ v ∈ value, P v) ∧ children.All P ∧ siblings.All P
  | nested _ inner children siblings => inner.All P ∧ children.All P ∧ siblings.All P

theorem All.mono {P Q : Value → Prop} (h : ∀ v, P v → Q v) {g : Grove} (hg : g.All P) :
    g.All Q := by
  induction g with
  | nil => trivial
  | plain n v ch sib ihch ihsib => exact ⟨fun v hv => h v (hg.1 v hv), ihch hg.2.1, ihsib hg.2.2⟩
  | nested n inner ch sib ihin ihch ihsib => exact ⟨ihin hg.1, ihch hg.2.1, ihsib hg.2.2⟩

/-- Two groves of one shape whose values stand in a relation, place by place. -/
inductive Rel (R : Option Value → Option Value → Prop) : Grove → Grove → Prop
  | nil : Rel R nil nil
  | plain {name : String} {v v' : Option Value} {ch ch' sib sib' : Grove} (hv : R v v')
      (hch : Rel R ch ch') (hsib : Rel R sib sib') :
      Rel R (plain name v ch sib) (plain name v' ch' sib')
  | nested {name : String} {inner inner' ch ch' sib sib' : Grove} (hinner : Rel R inner inner')
      (hch : Rel R ch ch') (hsib : Rel R sib sib') :
      Rel R (nested name inner ch sib) (nested name inner' ch' sib')

theorem Rel.mono {R S : Option Value → Option Value → Prop} (h : ∀ v v', R v v' → S v v')
    {g g' : Grove} (hg : Rel R g g') : Rel S g g' := by
  induction hg with
  | nil => exact .nil
  | plain hv _ _ ihch ihsib => exact .plain (h _ _ hv) ihch ihsib
  | nested _ _ _ ihin ihch ihsib => exact .nested ihin ihch ihsib

theorem Rel.height_eq {R : Option Value → Option Value → Prop} {g g' : Grove} (hg : Rel R g g') :
    g'.height = g.height := by
  induction hg with
  | nil => rfl
  | plain _ _ _ ihch ihsib => rw [height, height, ihch, ihsib]
  | nested _ _ _ ihin ihch ihsib => rw [height, height, ihin, ihch, ihsib]

theorem Rel.all_right {R : Option Value → Option Value → Prop} {P : Value → Prop}
    (hP : ∀ v v', R v v' → ∀ w ∈ v', P w) {g g' : Grove} (hg : Rel R g g') : g'.All P := by
  induction hg with
  | nil => trivial
  | plain hv _ _ ihch ihsib => exact ⟨hP _ _ hv, ihch, ihsib⟩
  | nested _ _ _ ihin ihch ihsib => exact ⟨ihin, ihch, ihsib⟩

end Grove

/-! ## What a forest shows -/

/-- The nodes `ids` of a forest show a grove, and none of the nodes in it is older than `low`.
The container of a nested tree shows nothing but its children. -/
inductive ShowsFrom (f : Forest) (low : Nat) : List NodeId → Grove → Prop
  | nil : ShowsFrom f low [] .nil
  | plain {id : NodeId} {ids : List NodeId} {ch sib : Grove} (hlow : low ≤ id)
      (hid : id < f.size) (hv : ∀ c, f.value id ≠ some (.node c))
      (hch : ShowsFrom f low (f.children id) ch) (hsib : ShowsFrom f low ids sib) :
      ShowsFrom f low (id :: ids) (.plain (f.name id) (f.value id) ch sib)
  | nested {id c : NodeId} {ids : List NodeId} {inner ch sib : Grove} (hlow : low ≤ id)
      (hid : id < f.size) (hv : f.value id = some (.node c)) (hclow : low ≤ c)
      (hc : c < f.size) (hcname : f.name c = "") (hcvalue : f.value c = none)
      (hinner : ShowsFrom f low (f.children c) inner)
      (hch : ShowsFrom f low (f.children id) ch) (hsib : ShowsFrom f low ids sib) :
      ShowsFrom f low (id :: ids) (.nested (f.name id) inner ch sib)

def Shows (f : Forest) (ids : List NodeId) (g : Grove) : Prop := ShowsFrom f 0 ids g

variable {f f' : Forest} {low low' : Nat} {ids ids' : List NodeId} {g g' : Grove}

theorem ShowsFrom.mono (h : ShowsFrom f low ids g) (hle : low' ≤ low) : ShowsFrom f low' ids g := by
  induction h with
  | nil => exact .nil
  | plain hlow hid hv _ _ ihch ihsib => exact .plain (hle.trans hlow) hid hv ihch ihsib
  | nested hlow hid hv hclow hc hcname hcvalue _ _ _ ihin ihch ihsib =>
    exact .nested (hle.trans hlow) hid hv (hle.trans hclow) hc hcname hcvalue ihin ihch ihsib

theorem ShowsFrom.shows (h : ShowsFrom f low ids g) : Shows f ids g := h.mono (Nat.zero_le low)

/-- From `low` up to `high` the nodes of two forests have the same names, values and children. -/
def SameOn (f f' : Forest) (low high : Nat) : Prop :=
  ∀ i, low ≤ i → i < high →
    f'.name i = f.name i ∧ f'.value i = f.value i ∧ f'.children i = f.children i

theorem ShowsFrom.congr (h : ShowsFrom f low ids g) (hsize : f.size ≤ f'.size)
    (hsame : SameOn f f' low f.size) : ShowsFrom f' low ids g := by
  induction h with
  | nil => exact .nil
  | plain hlow hid hv _ _ ihch ihsib =>
    obtain ⟨hname, hvalue, hchildren⟩ := hsame _ hlow hid
    rw [← hvalue] at hv
    rw [← hchildren] at ihch
    rw [← hname, ← hvalue]
    exact .plain hlow (Nat.lt_of_lt_of_le hid hsize) hv ihch ihsib
  | nested hlow hid hv hclow hc hcname hcvalue _ _ _ ihin ihch ihsib =>
    obtain ⟨hname, hvalue, hchildren⟩ := hsame _ hlow hid
    obtain ⟨hname', hvalue', hchildren'⟩ := hsame _ hclow hc
    rw [← hvalue] at hv
    rw [← hname'] at hcname
    rw [← hvalue'] at hcvalue
    rw [← hchildren] at ihch
    rw [← hchildren'] at ihin
    rw [← hname]
    exact .nested hlow (Nat.lt_of_lt_of_le hid hsize) hv hclow (Nat.lt_of_lt_of_le hc hsize) hcname
      hcvalue ihin ihch ihsib

theorem ShowsFrom.unique (h : ShowsFrom f low ids g) (h' : ShowsFrom f low' ids g') : g = g' := by
  induction h generalizing g' with
  | nil =>
    cases h'
    rfl
  | plain _ _ hv _ _ ihch ihsib =>
    cases h' with
    | plain _ _ _ hch hsib => rw [ihch hch, ihsib hsib]
    | nested _ _ hv' => exact absurd hv' (hv _)
  | nested _ _ hv _ _ _ _ _ _ _ ihin ihch ihsib =>
    cases h' with
    | plain _ _ hv' => exact absurd hv (hv' _)
    | nested _ _ hv' _ _ _ _ hinner hch hsib =>
      obtain rfl : _ = _ := Value.node.inj (Option.some.inj (hv.symm.trans hv'))
      rw [ihin hinner, ihch hch, ihsib hsib]

/-- Different nodes that each show more than `n` nodes. -/
structure Tops (f : Forest) (above : List NodeId) (n : Nat) : Prop where
  nodup : above.Nodup
  mem : ∀ a ∈ above, a < f.size ∧ ∃ ga, Shows f [a] ga ∧ n < ga.count

theorem Tops.mono {above : List NodeId} {m n : Nat} (h : Tops f above n) (hle : m ≤ n) :
    Tops f above m := by
  refine ⟨h.nodup, fun a ha => ?_⟩
  obtain ⟨ha', ga, hga, hlt⟩ := h.mem a ha
  exact ⟨ha', ga, hga, Nat.lt_of_le_of_lt hle hlt⟩

/-- A node that shows fewer nodes than all the others is not among them. -/
theorem Tops.push {above : List NodeId} {m n : Nat} {id : NodeId} (h : Tops f above n)
    (hid : id < f.size) (hown : Shows f [id] g) (hle : g.count ≤ n) (hlt : m < g.count) :
    Tops f (id :: above) m := by
  have hfresh : id ∉ above := by
    intro ha
    obtain ⟨-, ga, hga, hn⟩ := h.mem id ha
    rw [hga.unique hown] at hn
    omega
  refine ⟨List.nodup_cons.mpr ⟨hfresh, h.nodup⟩, fun a ha => ?_⟩
  rcases List.mem_cons.mp ha with rfl | ha
  · exact ⟨hid, g, hown, hlt⟩
  · obtain ⟨ha', ga, hga, hn⟩ := h.mem a ha
    exact ⟨ha', ga, hga, by omega⟩

/-- The nodes on the way down are all different, since what a node shows never shows the node
again. -/
theorem Shows.length_add_height_le (h : Shows f ids g) {above : List NodeId}
    (ha : Tops f above g.count) : above.length + g.height ≤ f.size := by
  unfold Shows at h
  induction h generalizing above with
  | nil => exact length_le_of_nodup ha.nodup fun a h => (ha.mem a h).1
  | @plain id ids ch sib hlow hid hv hch _ ihch ihsib =>
    have hown : Shows f [id] (.plain (f.name id) (f.value id) ch .nil) :=
      .plain hlow hid hv hch .nil
    have hdown := ihch (ha.push hid hown (by simp only [Grove.count]; omega)
      (by simp only [Grove.count]; omega))
    have hnext := ihsib (ha.mono (by simp only [Grove.count]; omega))
    rw [List.length_cons] at hdown
    simp only [Grove.height]
    omega
  | @nested id c ids inner ch sib hlow hid hv hclow hc hcname hcvalue hinner hch _ ihin ihch
      ihsib =>
    have hown : Shows f [id] (.nested (f.name id) inner ch .nil) :=
      .nested hlow hid hv hclow hc hcname hcvalue hinner hch .nil
    have hbox : Shows f [c] (.plain (f.name c) (f.value c) inner .nil) :=
      .plain hclow hc (by simp [hcvalue]) hinner .nil
    have hdown := ihch (ha.push hid hown (by simp only [Grove.count]; omega)
      (by simp only [Grove.count]; omega))
    have hinto := ihin ((ha.push hid hown (m := inner.count + 1)
      (by simp only [Grove.count]; omega) (by simp only [Grove.count]; omega)).push hc hbox
      (by simp only [Grove.count]; omega) (by simp only [Grove.count]; omega))
    have hnext := ihsib (ha.mono (by simp only [Grove.count]; omega))
    rw [List.length_cons] at hdown
    rw [List.length_cons, List.length_cons] at hinto
    simp only [Grove.height]
    omega

theorem Shows.height_le (h : Shows f ids g) : g.height ≤ f.size := by
  have htops : Tops f [] g.count := ⟨.nil, by simp⟩
  have hle := h.length_add_height_le htops
  simpa using hle

/-! ## Printing -/

/-- What a document needs of a registry: texts and nested trees are written and read as the
built-in types are. -/
structure Standard (r : Registry) : Prop where
  string : r.writers.lookup (.builtin .string) = some ("string", Registry.scalarWriter)
  node : r.writers.lookup (.builtin .node) = some ("node", Registry.nodeWriter)
  readsNode : r.readers.lookup "node" = some Registry.nodeReader

theorem standard_builtin : Standard Registry.builtin := ⟨rfl, rfl, rfl⟩

variable {r : Registry}

theorem describe_string_of_lookup
    (hr : r.writers.lookup (.builtin .string) = some ("string", Registry.scalarWriter))
    (children : NodeId → String) (s : String) :
    r.describeWith children (.string s) = ("string", s) := by
  simp [Registry.describeWith, Registry.lookup, Value.type, Value.kind?, hr,
    Registry.scalarWriter, Value.display, Value.text?]

theorem Standard.describe_string (hr : Standard r) (children : NodeId → String) (s : String) :
    r.describeWith children (.string s) = ("string", s) :=
  describe_string_of_lookup hr.string children s

theorem Standard.describe_node (hr : Standard r) (children : NodeId → String) (c : NodeId) :
    r.describeWith children (.node c) = ("node", children c) := by
  simp [Registry.describeWith, Registry.lookup, Value.type, Value.kind?, hr.node,
    Registry.nodeWriter]

/-- Tag and text of a value that is written without looking into the forest. -/
def pair (r : Registry) (v : Value) : String × String := r.describeWith (fun _ => "") v

/-- A value is written without looking into the forest. -/
def Steady (r : Registry) (v : Value) : Prop :=
  ∀ children, r.describeWith children v = pair r v

/-- The lines of a grove, the first of which is at the given level. -/
def Grove.text (r : Registry) : Nat → Grove → List Char
  | _, .nil => []
  | level, .plain name value ch sib =>
    lineText (pair r) false level name value ++ Text.crlf ++ ch.text r (level + 1) ++
      sib.text r level
  | level, .nested name inner ch sib =>
    lineText (fun _ => ("node", String.ofList (inner.text r 0))) false level name
      (some (.string "")) ++ Text.crlf ++ ch.text r (level + 1) ++ sib.text r level

theorem ShowsFrom.print_eq (hr : Standard r) (h : ShowsFrom f low ids g) (hg : g.All (Steady r))
    {depth : Nat} (hd : g.height ≤ depth) (level : Nat) :
    ids.flatMap (printTree r f depth false level) = g.text r level := by
  induction h generalizing depth level with
  | nil => rfl
  | @plain id ids ch sib hlow hid hv hch hsib ihch ihsib =>
    simp only [Grove.height] at hd
    obtain ⟨depth, rfl⟩ : ∃ d, depth = d + 1 := ⟨depth - 1, by omega⟩
    have hline : ∀ children, lineText (r.describeWith children) false level (f.name id)
        (f.value id) = lineText (pair r) false level (f.name id) (f.value id) := by
      intro children
      simp only [lineText, Bool.false_and, Bool.false_eq_true, if_false]
      cases hval : f.value id with
      | none => rfl
      | some v => simp only [Option.map_some, hg.1 v hval children]
    rw [List.flatMap_cons, printTree, hline, ihch hg.2.1 (by omega), ihsib hg.2.2 (by omega),
      Grove.text]
  | @nested id c ids inner ch sib hlow hid hv hclow hc hcname hcvalue hinner hch hsib ihin ihch
      ihsib =>
    simp only [Grove.height] at hd
    obtain ⟨depth, rfl⟩ : ∃ d, depth = d + 1 := ⟨depth - 1, by omega⟩
    rw [List.flatMap_cons, printTree, ihch hg.2.1 (by omega), ihsib hg.2.2 (by omega),
      Grove.text, hv]
    simp only [lineText, Bool.false_and, Bool.false_eq_true, if_false, Option.map_some,
      hr.describe_node, ihin hg.1 (show inner.height ≤ depth by omega) 0, nameText,
      Option.isNone_some, Bool.and_false]

/-! ## Comparing -/

/-- Two values that no document tells apart; nested trees are not among them. -/
def Alike (v v' : Option Value) : Prop :=
  (v = none ∧ v' = none) ∨ ∃ a b, v = some a ∧ v' = some b ∧ a.equal b = true

theorem allPairs_comm (same : NodeId → NodeId → Bool) (as bs : List NodeId) :
    allPairs same as bs = allPairs (fun b a => same a b) bs as := by
  induction as generalizing bs with
  | nil => cases bs <;> rfl
  | cons a as ih =>
    cases bs with
    | nil => rfl
    | cons b bs => rw [allPairs, allPairs, ih]

theorem sameTree_comm (f g : Forest) (depth : Nat) (a b : NodeId) :
    sameTree f g depth a b = sameTree g f depth b a := by
  induction depth generalizing a b with
  | zero => rfl
  | succ depth ih =>
    have hchildren := allPairs_comm (sameTree f g depth) (f.children a) (g.children b)
    simp only [ih] at hchildren
    rw [sameTree, sameTree, hchildren, Bool.beq_comm (a := f.name a)]
    congr 2
    cases f.value a with
    | none =>
      cases g.value b with
      | none => rfl
      | some y => cases y <;> rfl
    | some x =>
      cases g.value b with
      | none => cases x <;> rfl
      | some y => cases x <;> cases y <;> first | exact ih _ _ | exact Value.equal_comm _ _

theorem ShowsFrom.inv_plain {name : String} {v : Option Value} {ch sib : Grove}
    (h : ShowsFrom f low ids (.plain name v ch sib)) :
    ∃ id rest, ids = id :: rest ∧ f.name id = name ∧ f.value id = v ∧ (∀ c, v ≠ some (.node c)) ∧
      ShowsFrom f low (f.children id) ch ∧ ShowsFrom f low rest sib := by
  generalize hg : Grove.plain name v ch sib = g at h
  cases h with
  | nil => cases hg
  | nested => cases hg
  | @plain id ids _ _ _ _ hv hch hsib =>
    obtain ⟨rfl, rfl, rfl, rfl⟩ := Grove.plain.inj hg
    exact ⟨id, ids, rfl, rfl, rfl, hv, hch, hsib⟩

theorem ShowsFrom.inv_nested {name : String} {inner ch sib : Grove}
    (h : ShowsFrom f low ids (.nested name inner ch sib)) :
    ∃ id rest c, ids = id :: rest ∧ f.name id = name ∧ f.value id = some (.node c) ∧
      f.name c = "" ∧ f.value c = none ∧ ShowsFrom f low (f.children c) inner ∧
      ShowsFrom f low (f.children id) ch ∧ ShowsFrom f low rest sib := by
  generalize hg : Grove.nested name inner ch sib = g at h
  cases h with
  | nil => cases hg
  | plain => cases hg
  | @nested id c ids _ _ _ _ _ hv _ _ hcname hcvalue hinner hch hsib =>
    obtain ⟨rfl, rfl, rfl, rfl⟩ := Grove.nested.inj hg
    exact ⟨id, ids, c, rfl, rfl, hv, hcname, hcvalue, hinner, hch, hsib⟩

theorem sameTree_of_alike {a b : NodeId} {depth : Nat} (hname : f.name a = f'.name b)
    (hva : ∀ c, f.value a ≠ some (.node c)) (hval : Alike (f.value a) (f'.value b))
    (hch : allPairs (sameTree f f' depth) (f.children a) (f'.children b) = true) :
    sameTree f f' (depth + 1) a b = true := by
  simp only [sameTree, hch, hname, beq_self_eq_true, Bool.true_and, Bool.and_true]
  rcases hval with ⟨ha, hb⟩ | ⟨x, y, ha, hb, heq⟩
  · rw [ha, hb]
  · rw [ha, hb]
    split
    · rfl
    · rename_i hx _
      exact absurd (ha.trans hx) (hva _)
    · rename_i hx hy
      cases hx
      cases hy
      exact heq
    · simp_all

theorem ShowsFrom.allPairs_sameTree (h : ShowsFrom f low ids g) (h' : ShowsFrom f' low' ids' g')
    (hrel : Grove.Rel Alike g g') {depth : Nat} (hd : g.height ≤ depth) :
    allPairs (sameTree f f' depth) ids ids' = true := by
  induction hrel generalizing depth ids ids' with
  | nil =>
    cases h
    cases h'
    rfl
  | plain hval _ _ ihch ihsib =>
    simp only [Grove.height] at hd
    obtain ⟨depth, rfl⟩ : ∃ d, depth = d + 1 := ⟨depth - 1, by omega⟩
    obtain ⟨a, rest, rfl, hna, hva, hnode, hch, hsib⟩ := h.inv_plain
    obtain ⟨b, rest', rfl, hnb, hvb, -, hch', hsib'⟩ := h'.inv_plain
    have hsame := sameTree_of_alike (hna.trans hnb.symm) (by rwa [hva]) (by rwa [hva, hvb])
      (ihch hch hch' (show _ ≤ depth by omega))
    rw [allPairs, hsame, ihsib hsib hsib' (by omega)]
    rfl
  | nested _ _ _ ihin ihch ihsib =>
    simp only [Grove.height] at hd
    obtain ⟨depth, rfl⟩ : ∃ d, depth = d + 2 := ⟨depth - 2, by omega⟩
    obtain ⟨a, rest, c, rfl, hna, hva, hcn, hcv, hin, hch, hsib⟩ := h.inv_nested
    obtain ⟨b, rest', c', rfl, hnb, hvb, hcn', hcv', hin', hch', hsib'⟩ := h'.inv_nested
    have hbox : sameTree f f' (depth + 1) c c' = true :=
      sameTree_of_alike (hcn.trans hcn'.symm) (by simp [hcv]) (.inl ⟨hcv, hcv'⟩)
        (ihin hin hin' (by omega))
    have hsame : sameTree f f' (depth + 2) a b = true := by
      rw [sameTree, hva, hvb]
      simp [hbox, hna, hnb, ihch hch hch' (show _ ≤ depth + 1 by omega)]
    rw [allPairs, hsame, ihsib hsib hsib' (by omega)]
    rfl

end Outline.Document
