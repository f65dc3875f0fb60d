import Outline.Proofs.Document.Tidy
import Outline.Proofs.Document.Unbounded

/-!
# Every node has its place

Whether a document comes from text or from JSON, every node of its forest is on one route from
the root, and on no other. So there is an end to every recursion that follows children and
nested trees.
-/

namespace Outline.Document

open Forest

variable {convert : Convert}

/-! ## Documents from JSON -/

theorem FromJson.bind_eq_ok {α β : Type} {x : FromJson α} {k : α → FromJson β} {b : β}
    {f g : Forest} :
    (x >>= k) f = .ok (b, g) ↔ ∃ a h, x f = .ok (a, h) ∧ k a h = .ok (b, g) := by
  change (x f >>= fun ah => k ah.1 ah.2) = .ok (b, g) ↔ _
  rw [Outline.bind_eq_ok]
  constructor
  · rintro ⟨⟨a, h⟩, hx, hk⟩
    exact ⟨a, h, hx, hk⟩
  · rintro ⟨a, h, hx, hk⟩
    exact ⟨(a, h), hx, hk⟩

theorem FromJson.lift_eq_ok {α : Type} {x : Except ProjectionError α} {a : α} {f g : Forest} :
    (liftM x : FromJson α) f = .ok (a, g) ↔ x = .ok a ∧ f = g := by
  cases x with
  | error e =>
    constructor
    · intro h
      cases h
    · rintro ⟨h, -⟩
      cases h
  | ok a' =>
    constructor
    · intro h
      cases h
      exact ⟨rfl, rfl⟩
    · rintro ⟨h, rfl⟩
      cases h
      rfl

theorem adds_jsonValue (hc : Tidy convert) {members : List (String × Json)} {v : Option Value}
    {f g : Forest} (hf : f.WellFormed) (h : jsonValue convert members f = .ok (v, g)) :
    Adds f g (v.bind Value.container?).toList := by
  rw [jsonValue, FromJson.bind_eq_ok] at h
  obtain ⟨raw, f', hraw, h⟩ := h
  obtain ⟨-, rfl⟩ := FromJson.lift_eq_ok.mp hraw
  cases raw with
  | none =>
    cases h
    exact .refl hf
  | some raw =>
    match hm : Json.member? "type" members with
    | some (.string tag) =>
      rw [hm] at h
      by_cases htag : tag = "string"
      · simp only [htag, if_true] at h
        cases h
        exact .refl hf
      · simp only [htag, if_false] at h
        rcases hconvert : convert tag raw f with ⟨_ | value, f₁⟩ <;> rw [hconvert] at h
        · cases h
        · cases h
          exact hc.adds tag raw hf hconvert
    | none | some .null | some (.bool _) | some (.integer _) | some (.double _)
    | some (.array _) | some (.object _) =>
      rw [hm] at h
      cases h
      exact .refl hf

mutual

theorem adds_nodeOfJson (hc : Tidy convert) (json : Json) {f g : Forest} {id : NodeId}
    (hf : f.WellFormed) (h : nodeOfJson convert json f = .ok (id, g)) : Adds f g [id] := by
  match json with
  | .object members =>
    rw [nodeOfJson, FromJson.bind_eq_ok] at h
    obtain ⟨name, f₁, hname, h⟩ := h
    obtain ⟨-, rfl⟩ := FromJson.lift_eq_ok.mp hname
    rw [FromJson.bind_eq_ok] at h
    obtain ⟨v, f₂, hv, h⟩ := h
    rw [FromJson.bind_eq_ok] at h
    obtain ⟨new, f₃, hnew, h⟩ := h
    cases hnew
    rw [FromJson.bind_eq_ok] at h
    obtain ⟨u, f₄, hch, h⟩ := h
    cases h
    have hnode := (adds_jsonValue hc hf hv).createWith name
    exact adds_childrenOfJson hc members hnode (hnode.fresh (by simp)).1
      (hnode.fresh (by simp)).2 hch
  | .null | .bool _ | .integer _ | .double _ | .string _ | .array _ => cases h

theorem adds_childrenOfJson (hc : Tidy convert) (members : List (String × Json))
    {base f g : Forest} {tops : List NodeId} {parent : NodeId} (hf : Adds base f tops)
    (hbase : base.size ≤ parent) (hlt : parent < f.size)
    (h : childrenOfJson convert parent members f = .ok ((), g)) : Adds base g tops := by
  match members with
  | [] =>
    cases h
    exact hf
  | (key, value) :: rest =>
    unfold childrenOfJson at h
    split at h
    · split at h
      · exact adds_nodesOfJson hc _ hf hbase hlt h
      · cases h
    · exact adds_childrenOfJson hc rest hf hbase hlt h

theorem adds_nodesOfJson (hc : Tidy convert) (items : List Json) {base f g : Forest}
    {tops : List NodeId} {parent : NodeId} (hf : Adds base f tops) (hbase : base.size ≤ parent)
    (hlt : parent < f.size) (h : nodesOfJson convert parent items f = .ok ((), g)) :
    Adds base g tops := by
  match items with
  | [] =>
    cases h
    exact hf
  | item :: rest =>
    rw [nodesOfJson, FromJson.bind_eq_ok] at h
    obtain ⟨id, f₁, hid, h⟩ := h
    rw [FromJson.bind_eq_ok] at h
    obtain ⟨u, f₂, hadd, h⟩ := h
    cases hadd
    have hnode := adds_nodeOfJson hc item hf.grown.wf hid
    refine adds_nodesOfJson hc rest (hf.hang hnode hbase hlt) hbase ?_ h
    rw [size_add]
    exact Nat.lt_of_lt_of_le hlt hnode.grown.size_le

end

variable {r : Registry} {f : Forest}

theorem adds_ofJson (hr : ∀ entry ∈ r.readers, TidyReader entry.2) {json : Json}
    (h : ofJson r json = .ok f) : Adds ⟨#[]⟩ f [root] := by
  have hnodes : ∀ {items u}, nodesOfJson r.convert root items Forest.empty = .ok (u, f) →
      Adds ⟨#[]⟩ f [root] := fun h =>
    adds_nodesOfJson (tidy_convert hr) _ adds_empty (Nat.zero_le _) Nat.zero_lt_one h
  cases json with
  | array items | object members =>
    rw [ofJson, Outline.bind_eq_ok] at h
    obtain ⟨⟨u, g⟩, hrun, h⟩ := h
    cases h
    exact hnodes hrun
  | null | bool _ | integer _ | double _ | string _ => cases h

/-! ## Documents from text -/

theorem exists_layout_of_parse (hr : ∀ entry ∈ r.readers, TidyReader entry.2) {comments : Bool}
    {source : String} (h : parse r.convert comments source = .ok f) :
    ∃ p s, Layout ⟨#[]⟩ f root p s := by
  cases ht : tokenize source with
  | error e =>
    rw [parse, parseInto_apply, ht] at h
    cases h
  | ok ts =>
    obtain ⟨lines, hts⟩ := Token.spells_of_tokenize ht
    obtain ⟨p, s, -, hlayout⟩ := layout_of_parse hr ht hts h
    exact ⟨p, s, hlayout⟩

/-- The nested trees of a document from text stand in its forest, and no route leads back to where
it began. -/
theorem no_circle_of_parse (hr : ∀ entry ∈ r.readers, TidyReader entry.2) {comments : Bool}
    {source : String} (h : parse r.convert comments source = .ok f) :
    f.WellFormed ∧ (∀ id c, f.value id = some (.node c) → c < f.size) ∧
      ∀ id route, f.follow id route = some id → route = [] := by
  obtain ⟨p, s, hlayout⟩ := exists_layout_of_parse hr h
  have hadds := hlayout.adds
  exact ⟨hadds.grown.wf, fun id c hc => hadds.stays_of_empty (Forest.turn_inside.mpr hc),
    hadds.not_circle⟩

/-! ## Both -/

/-- In a document that was read from text or from JSON exactly one route leads from the root to
each node, where a route goes on to a child or into the nested tree that is a value. In a
document from text every turn leads to a younger node, and pre-order goes from old to young.
So printing, projecting and copying end without a bound, and their results are those of the
bounded functions. -/
theorem existsUnique_route_of_read (hr : ∀ entry ∈ r.readers, TidyReader entry.2)
    (hw : ∀ entry ∈ r.writers, ModestWriter entry.2.2)
    (h : (∃ comments source, parse r.convert comments source = .ok f) ∨
      ∃ json, ofJson r json = .ok f) :
    (∀ id < f.size, ∃! route, f.follow root route = some id) ∧
      (∀ comments source, parse r.convert comments source = .ok f →
        (∀ a t b, f.turn a t = some b → a < b) ∧ (f.descendants root).Pairwise (· < ·)) ∧
      (∀ comments, Printed r f comments 0 (f.children root) (print r f comments).toList) ∧
      (∃ items, toJson r f = .array items ∧ Projected r f (f.children root) items) ∧
      ∀ id < f.size, Copied id f (f.deepClone id) := by
  have hadds : Adds ⟨#[]⟩ f [root] := by
    rcases h with ⟨comments, source, h⟩ | ⟨json, h⟩
    · obtain ⟨p, s, hlayout⟩ := exists_layout_of_parse hr h
      exact hlayout.adds
    · exact adds_ofJson hr h
  have hroom : ∀ id ∈ f.children root, Room f f.size id := fun id hid =>
    room_size hadds (hadds.grown.wf.child_lt hid)
  refine ⟨fun id hid => hadds.existsUnique_route hid, fun comments source h => ?_,
    fun comments => ?_, ⟨_, rfl, projected_nodeJsonWithin hadds hw hroom⟩, fun id hid => ?_⟩
  · obtain ⟨p, s, hlayout⟩ := exists_layout_of_parse hr h
    exact ⟨fun a t b => hlayout.rising a t b (Nat.zero_le a), hlayout.ordered⟩
  · rw [print, printNodes, String.toList_ofList]
    exact printed_printTree hadds hw hroom comments 0
  · exact copied_copyTree hadds (room_size hadds hid) (.refl hadds.grown.wf root)

/-- A tree that is nested in a nested tree, from text and from JSON. -/
theorem existsUnique_route_of_read_nested :
    let way : List Turn := [.child 0, .inside, .child 0, .inside, .child 0]
    (∃ f, parse Registry.builtin.convert true "a:node:\"b:node:c\"\r\n   d" = .ok f ∧
      f.follow root way = some 5 ∧ (∃! route, f.follow root route = some 5) ∧
      Copied root f (f.deepClone root)) ∧
    ∃ f, ofJson Registry.builtin
        (.object [("type", .string "node"), ("value", .string "b:node:c")]) = .ok f ∧
      f.follow root way = some 4 ∧ (∃! route, f.follow root route = some 4) ∧
      Copied root f (f.deepClone root) := by
  intro way
  constructor
  · have hread : (parse Registry.builtin.convert true "a:node:\"b:node:c\"\r\n   d").toOption.any
        (fun f => f.size = 7 ∧ f.follow root way = some 5) = true := by decide +kernel
    cases h : parse Registry.builtin.convert true "a:node:\"b:node:c\"\r\n   d" with
    | error e =>
      rw [h] at hread
      cases hread
    | ok f =>
      rw [h] at hread
      obtain ⟨hsize, hway⟩ := of_decide_eq_true hread
      obtain ⟨hroute, -, -, -, hcopy⟩ := existsUnique_route_of_read tidyReader_builtin
        modestWriter_builtin (.inl ⟨true, _, h⟩)
      exact ⟨f, rfl, hway, hroute 5 (by omega), hcopy root (by rw [hsize]; decide)⟩
  · have hread : (ofJson Registry.builtin
        (.object [("type", .string "node"), ("value", .string "b:node:c")])).toOption.any
        (fun f => f.size = 6 ∧ f.follow root way = some 4) = true := by decide +kernel
    cases h : ofJson Registry.builtin
        (.object [("type", .string "node"), ("value", .string "b:node:c")]) with
    | error e =>
      rw [h] at hread
      cases hread
    | ok f =>
      rw [h] at hread
      obtain ⟨hsize, hway⟩ := of_decide_eq_true hread
      obtain ⟨hroute, -, -, -, hcopy⟩ := existsUnique_route_of_read tidyReader_builtin
        modestWriter_builtin (.inr ⟨_, h⟩)
      exact ⟨f, rfl, hway, hroute 4 (by omega), hcopy root (by rw [hsize]; decide)⟩

end Outline.Document
