import Outline.Document.Projection
import Outline.Proofs.Forest.Copy

/-!
# Recursion without a bound

Printing, projecting and copying follow children and nested trees, and nothing but the shape of
the forest makes them end. Here they are relations that know no bound. Where one route leads to
each node they all end, and what they give is what the bounded functions compute.
-/

namespace Outline.Document

open Forest Text

variable {r : Registry} {f : Forest}

/-! ## Without a bound -/

/-- Nodes are printed with all that is below and inside them. A writer gets the text of a
container in `nested`. -/
inductive Printed (r : Registry) (f : Forest) :
    (comments : Bool) → (level : Nat) → List NodeId → List Char → Prop
  | nil {comments : Bool} {level : Nat} : Printed r f comments level [] []
  | cons {comments : Bool} {level : Nat} {id : NodeId} {ids : List NodeId}
      {nested below rest : List Char}
      (hnested : ∀ c, f.value id = some (.node c) → Printed r f false 0 (f.children c) nested)
      (hbelow : Printed r f comments (level + 1) (f.children id) below)
      (hrest : Printed r f comments level ids rest) :
      Printed r f comments level (id :: ids)
        (lineText (r.describeWith fun _ => String.ofList nested) comments level (f.name id)
          (f.value id) ++ crlf ++ below ++ rest)

/-- The object of a node, given how its value is described and what its children are. -/
def nodeObject (describe : Value → String × String) (name : String) (value : Option Value)
    (children : List Json) : Json :=
  let members : List (String × Json) := [("children", .array children), ("name", .string name)]
  match value with
  | none => .object members
  | some value =>
    let (tag, text) := describe value
    let typeMember := if tag = "string" then [] else [("type", .string tag)]
    .object (members ++ typeMember ++ [("value", .string text)])

theorem nodeJsonWithin_succ (r : Registry) (f : Forest) (depth : Nat) (id : NodeId) :
    nodeJsonWithin r f (depth + 1) id =
      nodeObject (describe r f) (f.name id) (f.value id)
        ((f.children id).map (nodeJsonWithin r f depth)) := by
  cases hv : f.value id <;> simp only [nodeJsonWithin, nodeObject, hv]

/-- Nodes are projected with all that is below them; nested trees are printed. -/
inductive Projected (r : Registry) (f : Forest) : List NodeId → List Json → Prop
  | nil : Projected r f [] []
  | cons {id : NodeId} {ids : List NodeId} {nested : List Char} {below rest : List Json}
      (hnested : ∀ c, f.value id = some (.node c) → Printed r f false 0 (f.children c) nested)
      (hbelow : Projected r f (f.children id) below) (hrest : Projected r f ids rest) :
      Projected r f (id :: ids)
        (nodeObject (r.describeWith fun _ => String.ofList nested) (f.name id) (f.value id) below ::
          rest)

mutual

/-- A node is copied with all that is below and inside it. The copy comes with the forest it
was made in. -/
inductive Copied : NodeId → Forest → NodeId × Forest → Prop
  | plain {id : NodeId} {f g : Forest} (hv : ∀ c, f.value id ≠ some (.node c))
      (hbelow : CopiedBelow f.size (f.children id) (f.create (f.name id) (f.value id)).2 g) :
      Copied id f (f.size, g)
  | nested {id c copy : NodeId} {f f' g : Forest} (hv : f.value id = some (.node c))
      (hnested : Copied c f (copy, f'))
      (hbelow : CopiedBelow f'.size (f'.children id)
        (f'.create (f'.name id) (some (.node copy))).2 g) :
      Copied id f (f'.size, g)

/-- Copies of nodes are hung in one by one. -/
inductive CopiedBelow : NodeId → List NodeId → Forest → Forest → Prop
  | nil {parent : NodeId} {f : Forest} : CopiedBelow parent [] f f
  | cons {parent id copy : NodeId} {ids : List NodeId} {f f' g : Forest}
      (hcopy : Copied id f (copy, f')) (hrest : CopiedBelow parent ids (f'.add parent copy) g) :
      CopiedBelow parent (id :: ids) f g

end

/-! ## Writers -/

/-- A writer that asks for no text but that of the container it writes. -/
def ModestWriter (write : Registry.Writer) : Prop :=
  ∀ (children children' : NodeId → String) (tags : List String) (value : Value),
    (∀ c, value = .node c → children c = children' c) →
    write ⟨children, tags⟩ value = write ⟨children', tags⟩ value

theorem modestWriter_builtin : ∀ entry ∈ Registry.builtin.writers, ModestWriter entry.2.2 := by
  intro entry h
  simp only [Registry.builtin, List.mem_append, List.mem_map, List.mem_singleton] at h
  rcases h with ⟨kind, -, rfl⟩ | rfl
  · exact fun _ _ _ _ _ => rfl
  · intro children children' tags value h
    cases value with
    | node c => exact h c rfl
    | _ => rfl

theorem modestWriter_registerType (hw : ∀ entry ∈ r.writers, ModestWriter entry.2.2)
    (type : Value.TypeKey) (tag : String) (write : Value.Custom → String)
    (read : String → Except String Value.Custom) :
    ∀ entry ∈ (r.registerType type tag write read).writers, ModestWriter entry.2.2 := by
  intro entry h
  rw [Registry.registerType, Registry.register, Registry.insert] at h
  rcases List.mem_cons.mp h with rfl | h
  · intro children children' tags value _
    rfl
  · exact hw entry (List.mem_filter.mp h).1

theorem describeWith_congr (hw : ∀ entry ∈ r.writers, ModestWriter entry.2.2) {value : Value}
    {children children' : NodeId → String}
    (h : ∀ c, value = .node c → children c = children' c) :
    r.describeWith children value = r.describeWith children' value := by
  rw [Registry.describeWith, Registry.describeWith, Registry.lookup, Registry.lookup]
  cases hwrite : r.writers.lookup value.type with
  | none => rfl
  | some entry =>
    obtain ⟨l, l', hl, -⟩ := List.lookup_eq_some_iff.mp hwrite
    have hmodest := hw (value.type, entry) (by simp [hl])
    simp only [Option.map_some, Option.getD_some]
    rw [hmodest children children' r.tags value h]

theorem lineText_congr_value {describe describe' : Value → String × String} {value : Option Value}
    (h : ∀ v, value = some v → describe v = describe' v) (comments : Bool) (level : Nat)
    (name : String) :
    lineText describe comments level name value = lineText describe' comments level name value := by
  cases value with
  | none => rfl
  | some v => simp only [lineText, Option.map_some, h v rfl]

/-! ## All of them end -/

theorem exists_nested (id : NodeId) (inner : NodeId → List Char) :
    ∃ nested, ∀ c, f.value id = some (.node c) → nested = inner c := by
  cases hv : (f.value id).bind Value.container? with
  | none =>
    refine ⟨[], fun c hc => ?_⟩
    rw [hc] at hv
    cases hv
  | some c =>
    refine ⟨inner c, fun c' hc' => ?_⟩
    rw [hc'] at hv
    cases hv
    rfl

theorem printed_of_shallow (hw : ∀ entry ∈ r.writers, ModestWriter entry.2.2) {n : Nat}
    {ids : List NodeId} (hids : ∀ id ∈ ids, Shallow f n id) (comments : Bool) (level : Nat) :
    Printed r f comments level ids (ids.flatMap (printTree r f n comments level)) := by
  induction n generalizing ids comments level with
  | zero =>
    cases ids with
    | nil => exact .nil
    | cons id ids => exact absurd (hids id (by simp)) (not_shallow_zero f id)
  | succ n ih =>
    induction ids with
    | nil => exact .nil
    | cons id ids ihids =>
      have hid := hids id (by simp)
      obtain ⟨nested, hnested⟩ := exists_nested (f := f) id fun c =>
        (f.children c).flatMap (printTree r f n false 0)
      have hline : printTree r f (n + 1) comments level id =
          lineText (r.describeWith fun _ => String.ofList nested) comments level (f.name id)
            (f.value id) ++ crlf ++
          (f.children id).flatMap (printTree r f n comments (level + 1)) := by
        rw [printTree]
        congr 2
        refine lineText_congr_value (fun v hv => describeWith_congr hw fun c hc => ?_) _ _ _
        rw [hnested c (by rw [hv, hc])]
      rw [List.flatMap_cons, hline]
      refine .cons (fun c hc => ?_) (ih (fun c hc => hid.child hc) _ _)
        (ihids fun id hid => hids id (by simp [hid]))
      rw [hnested c hc]
      exact ih (fun x hx => hid.inside hc hx) _ _

theorem projected_of_shallow (hw : ∀ entry ∈ r.writers, ModestWriter entry.2.2) {n : Nat}
    (hn : n ≤ f.size) {ids : List NodeId} (hids : ∀ id ∈ ids, Shallow f n id) :
    Projected r f ids (ids.map (nodeJsonWithin r f n)) := by
  induction n generalizing ids with
  | zero =>
    cases ids with
    | nil => exact .nil
    | cons id ids => exact absurd (hids id (by simp)) (not_shallow_zero f id)
  | succ n ih =>
    induction ids with
    | nil => exact .nil
    | cons id ids ihids =>
      have hid := hids id (by simp)
      obtain ⟨nested, hnested⟩ := exists_nested (f := f) id fun c =>
        (f.children c).flatMap (printTree r f f.size false 0)
      have hnode : nodeJsonWithin r f (n + 1) id =
          nodeObject (r.describeWith fun _ => String.ofList nested) (f.name id) (f.value id)
            ((f.children id).map (nodeJsonWithin r f n)) := by
        rw [nodeJsonWithin_succ]
        cases hv : f.value id with
        | none => rfl
        | some v =>
          have hdescribe : describe r f v = r.describeWith (fun _ => String.ofList nested) v :=
            describeWith_congr hw fun c hc => by rw [hnested c (by rw [hv, hc]), printNodes]
          simp only [nodeObject, hdescribe]
      rw [List.map_cons, hnode]
      refine .cons (fun c hc => ?_) (ih (Nat.le_of_succ_le hn) fun c hc => hid.child hc)
        (ihids fun id hid => hids id (by simp [hid]))
      rw [hnested c hc]
      exact printed_of_shallow hw (fun x hx => (hid.inside hc hx).mono (Nat.le_of_succ_le hn)) _ _

theorem copiedBelow_hangCopies {n : Nat} {ids : List NodeId}
    (hcopy : ∀ id ∈ ids, ∀ g, Grown f g root [] →
      Copied id g (copyTree n id g) ∧ Copies f g id (copyTree n id g))
    {parent : NodeId} {base g : Forest} (hbase : Grown f base root [])
    (hg : Adds base g [parent]) : CopiedBelow parent ids g (hangCopies n parent ids g) := by
  induction ids generalizing g with
  | nil => exact .nil
  | cons id ids ih =>
    obtain ⟨hmade, hcopies⟩ := hcopy id (by simp) g (hbase.trans hg.grown)
    exact .cons hmade (ih (fun id hid => hcopy id (by simp [hid])) (hcopies.hang hg).1)

theorem copied_of_shallow {n : Nat} {id : NodeId} (hid : Shallow f n id) (hin : Confined f id)
    {g : Forest} (hg : Grown f g root []) : Copied id g (copyTree n id g) := by
  induction n generalizing id g with
  | zero => exact absurd hid (not_shallow_zero f id)
  | succ n ih =>
    have hbelow : ∀ {h : Forest}, Grown f h root [] → ∀ c ∈ h.children id, ∀ k,
        Grown f k root [] → Copied c k (copyTree n c k) ∧ Copies f k c (copyTree n c k) := by
      intro h hh c hc k hk
      have hsame : h.children id = f.children id := by simpa using hh.children id hin.lt
      rw [hsame] at hc
      exact ⟨ih (hid.child hc) (hin.child hc) hk,
        copies_copyTree (hid.child hc) (hin.child hc) hk⟩
    rw [copyTree_succ]
    cases hc : (g.value id).bind Value.container? with
    | none =>
      rw [copyValue_of_plain hc]
      have hplain : ∀ c, g.value id ≠ some (.node c) := by
        intro c hv
        rw [hv] at hc
        cases hc
      exact .plain hplain (copiedBelow_hangCopies (hbelow hg) hg
        (Adds.create hg.wf (g.name id) hc))
    | some c =>
      have hv := turn_inside.mp hc
      rw [hv]
      have hturn : f.turn id .inside = some c := turn_inside.mpr (hg.value id hin.lt ▸ hv)
      have hadds := (copies_copyTree (hid.turn hturn) (hin.turn hturn) hg).1
      exact .nested hv (ih (hid.turn hturn) (hin.turn hturn) hg)
        (copiedBelow_hangCopies (hbelow (hg.trans hadds.grown)) hg
          (hadds.createWith (v := some (.node (copyTree n c g).1)) ((copyTree n c g).2.name id)))

/-! ## Where one route leads to each node -/

/-- A route to the node leaves room for no more than `n` nodes, the node itself counted. -/
def Room (f : Forest) (n : Nat) (id : NodeId) : Prop :=
  ∃ route, f.follow root route = some id ∧ f.size ≤ route.length + n

section

variable (hf : Adds ⟨#[]⟩ f [root])

include hf

theorem room_size {id : NodeId} (hid : id < f.size) : Room f f.size id := by
  obtain ⟨route, hroute, -⟩ := hf.existsUnique_route hid
  exact ⟨route, hroute, Nat.le_add_left _ _⟩

theorem Room.shallow {n : Nat} {id : NodeId} (h : Room f n id) : Shallow f n id := by
  obtain ⟨way, hway, hle⟩ := h
  intro route b hb
  have hlong : f.follow root (way ++ route) = some b := by
    rw [follow_append, hway, Option.bind_some, hb]
  have hlt := hf.length_route_lt hlong
  rw [List.length_append] at hlt
  omega

theorem Room.confined {n : Nat} {id : NodeId} (h : Room f n id) : Confined f id := by
  obtain ⟨way, hway, -⟩ := h
  exact confined_of_turn hf.stays_of_empty (hf.follow_lt hway)

theorem printed_printTree (hw : ∀ entry ∈ r.writers, ModestWriter entry.2.2) {n : Nat}
    {ids : List NodeId} (hids : ∀ id ∈ ids, Room f n id) (comments : Bool) (level : Nat) :
    Printed r f comments level ids (ids.flatMap (printTree r f n comments level)) :=
  printed_of_shallow hw (fun id hid => (hids id hid).shallow hf) comments level

theorem projected_nodeJsonWithin (hw : ∀ entry ∈ r.writers, ModestWriter entry.2.2)
    {ids : List NodeId} (hids : ∀ id ∈ ids, Room f f.size id) :
    Projected r f ids (ids.map (nodeJsonWithin r f f.size)) :=
  projected_of_shallow hw (Nat.le_refl _) fun id hid => (hids id hid).shallow hf

theorem copied_copyTree {n : Nat} {id : NodeId} (hid : Room f n id) {g : Forest}
    (hg : Grown f g root []) : Copied id g (copyTree n id g) :=
  copied_of_shallow (hid.shallow hf) (hid.confined hf) hg

end

end Outline.Document
