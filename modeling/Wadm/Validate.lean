import Wadm.Label
import Mathlib.Data.List.Nodup

/-! # Manifest validation

`validate_manifest`: the schema check, the label rules, then one loop over the components with
three registries, and the check that every link target names a component. The schema itself
(`oam.schema.json`) is not part of this crate's code; its errors come in as a function.
-/

namespace Wadm

/-! ## Messages -/

/-- `PathChunk` of the `jsonschema` crate. -/
inductive PathChunk where
  | property (value : String)
  | index (idx : Nat)
  | keyword (word : String)
deriving DecidableEq

def PathChunk.render : PathChunk → String
  | .property value => value
  | .index idx => s!" at index: {idx}"
  | .keyword word => word

/-- The error of a failed schema check, one line per error. -/
def schemaMessage (errors : List (List PathChunk)) : String :=
  let errorMessage := String.join <| errors.map fun path =>
    let instancePath := "/".intercalate (path.map PathChunk.render)
    s!"Should be able to parse object at: {instancePath} \n"
  s!"Validation Error: \n{errorMessage}Please check for missing or incorrect elements"

/-- One character as `{:?}` prints it inside a string. -/
def escapeDebug (c : Char) : String :=
  if c = '\t' then "\\t" else if c = '\r' then "\\r" else if c = '\n' then "\\n"
  else if c = '\\' then "\\\\" else if c = '"' then "\\\"" else c.toString

/-- `{:?}` of a string. -/
def debugString (s : String) : String := "\"" ++ String.join (s.toList.map escapeDebug) ++ "\""

/-- `{:?}` of a `Vec<&String>`. -/
def debugList (items : List String) : String := "[" ++ ", ".intercalate (items.map debugString) ++ "]"

/-! ## The code -/

/-- The two `id_registry.insert` checks: a capability's `id`, then a component's `id`. -/
def registerId (properties : Properties) (ids : List String) : Except String (List String) :=
  match properties with
  | .capability (some componentId) _ =>
    if componentId ∈ ids then .error s!"Duplicate component identifier in manifest: {componentId}"
    else .ok (componentId :: ids)
  | .component (some id) =>
    if id ∈ ids then .error s!"Duplicate component identifier in manifest: {id}"
    else .ok (id :: ids)
  | _ => .ok ids

/-- The loop over one component's traits; `linkdefs` is `linkdef_set`. -/
def checkLinks (componentName : String) :
    List Trait → List String → List String → Except String (List String)
  | [], _, required => .ok required
  | t :: rest, linkdefs, required =>
    match t.properties with
    | .link targetName =>
      if targetName ∈ linkdefs then
        .error s!"Duplicate target {targetName} for component {componentName} linkdef trait in manifest"
      else checkLinks componentName rest (targetName :: linkdefs) (required.insert targetName)
    | .other => checkLinks componentName rest linkdefs required

/-- The loop over `spec.components`, with `name_registry`, `id_registry` and
`required_capability_components`, and the final set difference. -/
def checkComponents : List Component → List String → List String → List String → Except String Unit
  | [], names, _, required =>
    let missing := required.filter (· ∉ names)
    if missing.isEmpty then .ok ()
    else
      let shown := debugList missing
      .error s!"The following capability component(s) are missing from the manifest:  {shown}"
  | component :: rest, names, ids, required =>
    let name := component.name
    if name ∈ names then .error s!"Duplicate component name in manifest: {name}"
    else
      match registerId component.properties ids with
      | .error e => .error e
      | .ok ids =>
        match checkLinks name (component.traits.getD []) [] required with
        | .error e => .error e
        | .ok required => checkComponents rest (name :: names) ids required

/-- `validate_manifest`, given the errors the compiled schema reports. -/
def validateManifest (schemaErrors : Manifest → List (List PathChunk)) (manifest : Manifest) :
    Except String Unit :=
  let errors := schemaErrors manifest
  if !errors.isEmpty then .error (schemaMessage errors)
  else if !manifest.metadata.labels.all validOamLabel then
    .error "Condition failed: `manifest.metadata.labels.iter().all(valid_oam_label)`"
  else if !manifest.metadata.annotations.all validOamLabel then
    .error "Condition failed: `manifest.metadata.annotations.iter().all(valid_oam_label)`"
  else checkComponents manifest.components [] [] []

/-! ## What the loops check -/

/-- The `id` a component supplies, whichever its kind. -/
def suppliedId : Properties → Option String
  | .capability id _ => id
  | .component id => id

/-- The ids of a list of components, from the one pool `id_registry` holds. -/
def suppliedIds (components : List Component) : List String :=
  components.flatMap fun c => (suppliedId c.properties).toList

/-- The targets of the link traits in a list of traits, in order. -/
def traitTargets (traits : List Trait) : List String :=
  traits.filterMap fun t =>
    match t.properties with
    | .link target => some target
    | .other => none

/-- The targets of a component's link traits. -/
def linkTargets (c : Component) : List String := traitTargets (c.traits.getD [])

/-- What the component loop demands of `cs` when it starts from the registries `names`, `ids`
and `required`. -/
def LoopOk (cs : List Component) (names ids required : List String) : Prop :=
  (∀ c ∈ cs, c.name ∉ names) ∧ (cs.map (·.name)).Nodup ∧
    (∀ i ∈ suppliedIds cs, i ∉ ids) ∧ (suppliedIds cs).Nodup ∧
    (∀ c ∈ cs, (linkTargets c).Nodup) ∧
    ∀ t, (t ∈ required ∨ ∃ c ∈ cs, t ∈ linkTargets c) → t ∈ names ∨ t ∈ cs.map (·.name)

theorem registerId_eq (p : Properties) (ids : List String) :
    registerId p ids = match suppliedId p with
      | some i => if i ∈ ids then .error s!"Duplicate component identifier in manifest: {i}"
        else .ok (i :: ids)
      | none => .ok ids := by
  rcases p with ⟨_ | i⟩ | ⟨_ | i, image⟩ <;> rfl

@[simp] theorem traitTargets_nil : traitTargets [] = [] := rfl

theorem traitTargets_cons (t : Trait) (ts : List Trait) :
    traitTargets (t :: ts) = match t.properties with
      | .link target => target :: traitTargets ts
      | .other => traitTargets ts := by
  rcases t with ⟨_ | _⟩ <;> rfl

/-- The trait loop fails exactly on a repeated target, and otherwise adds the targets. -/
theorem checkLinks_spec (name : String) (ts : List Trait) (linkdefs required : List String) :
    match checkLinks name ts linkdefs required with
    | .ok r => (traitTargets ts).Nodup ∧ (∀ t ∈ traitTargets ts, t ∉ linkdefs) ∧
        ∀ x, x ∈ r ↔ x ∈ required ∨ x ∈ traitTargets ts
    | .error _ => ¬ ((traitTargets ts).Nodup ∧ ∀ t ∈ traitTargets ts, t ∉ linkdefs) := by
  induction ts generalizing linkdefs required with
  | nil => simp [checkLinks]
  | cons t ts ih =>
    rcases t with ⟨target | _⟩
    swap
    · exact ih linkdefs required
    simp only [checkLinks, traitTargets_cons]
    by_cases hmem : target ∈ linkdefs
    · simp [hmem]
    · have := ih (target :: linkdefs) (required.insert target)
      simp only [hmem, if_false]
      revert this
      cases checkLinks name ts (target :: linkdefs) (required.insert target) with
      | error e =>
        rintro hne ⟨hnd, hall⟩
        refine hne ⟨(List.nodup_cons.mp hnd).2, fun t ht hm => ?_⟩
        rcases List.mem_cons.mp hm with rfl | hm
        · exact (List.nodup_cons.mp hnd).1 ht
        · exact hall t (List.mem_cons_of_mem _ ht) hm
      | ok r =>
        rintro ⟨hnd, hnot, hr⟩
        refine ⟨List.nodup_cons.mpr ⟨fun h => hnot target h (List.mem_cons_self _ _), hnd⟩,
          List.forall_mem_cons.mpr ⟨hmem, fun t ht h => hnot t ht (List.mem_cons_of_mem _ h)⟩,
          fun x => ?_⟩
        rw [hr, List.mem_insert_iff, List.mem_cons, @or_comm (x = target), or_assoc]

theorem loopOk_nil (names ids required : List String) :
    LoopOk [] names ids required ↔ ∀ t ∈ required, t ∈ names := by
  simp [LoopOk, suppliedIds]

theorem loopOk_cons {c : Component} {cs : List Component} {names ids required r : List String}
    (hr : ∀ x, x ∈ r ↔ x ∈ required ∨ x ∈ linkTargets c) :
    LoopOk (c :: cs) names ids required ↔
      c.name ∉ names ∧ (∀ i ∈ suppliedId c.properties, i ∉ ids) ∧ (linkTargets c).Nodup ∧
        LoopOk cs (c.name :: names) ((suppliedId c.properties).toList ++ ids) r := by
  simp only [LoopOk, suppliedIds, List.map_cons, List.nodup_cons, List.flatMap_cons,
    List.nodup_append, List.mem_append, List.mem_cons, hr, List.mem_map, Option.mem_toList,
    or_imp, forall_and, forall_eq, not_or, or_and_right, exists_or, exists_eq_left,
    List.disjoint_left, Option.toList_nodup, true_and, not_exists, not_and]
  have sw : ∀ {p q r : Prop}, p ∨ q ∨ r ↔ (q ∨ p) ∨ r := or_left_comm.trans or_assoc.symm
  constructor
  · rintro ⟨⟨a1, a1'⟩, ⟨b, n⟩, ⟨i1, i2⟩, ⟨nd, dj⟩, ⟨l1, l2⟩, r1, r2, r3⟩
    exact ⟨a1, i1, l1, ⟨b, a1'⟩, n, ⟨fun x hx hs => dj hs hx, i2⟩, nd, l2,
      ⟨fun x hx => sw.mp (r1 x hx), fun x hx => sw.mp (r2 x hx)⟩, fun x hx => sw.mp (r3 x hx)⟩
  · rintro ⟨a1, i1, l1, ⟨b, a1'⟩, n, ⟨dj, i2⟩, nd, l2, ⟨r1, r2⟩, r3⟩
    exact ⟨⟨a1, a1'⟩, ⟨b, n⟩, ⟨i1, i2⟩, ⟨nd, fun a ha hl => dj a hl ha⟩, ⟨l1, l2⟩,
      fun x hx => sw.mpr (r1 x hx), fun x hx => sw.mpr (r2 x hx), fun x hx => sw.mpr (r3 x hx)⟩

theorem registerId_spec (p : Properties) (ids : List String) :
    match registerId p ids with
    | .ok ids' => (∀ i ∈ suppliedId p, i ∉ ids) ∧ ids' = (suppliedId p).toList ++ ids
    | .error _ => ¬ ∀ i ∈ suppliedId p, i ∉ ids := by
  rw [registerId_eq]
  cases suppliedId p with
  | none => simp
  | some i => by_cases h : i ∈ ids <;> simp [h]

/-- The component loop succeeds exactly when `LoopOk` holds of what is left to check. -/
theorem checkComponents_ok_iff (cs : List Component) (names ids required : List String) :
    checkComponents cs names ids required = .ok () ↔ LoopOk cs names ids required := by
  induction cs generalizing names ids required with
  | nil => simp [checkComponents, loopOk_nil, List.filter_eq_nil_iff]
  | cons c cs ih =>
    have hcons := @loopOk_cons c cs names ids required (required ++ linkTargets c)
      fun _ => List.mem_append
    simp only [checkComponents]
    split_ifs with hn
    · exact iff_of_false (by simp) fun h => (hcons.mp h).1 hn
    have hid := registerId_spec c.properties ids
    rcases hreg : registerId c.properties ids with e | ids'
    · rw [hreg] at hid
      exact iff_of_false (by simp) fun h => hid (hcons.mp h).2.1
    rw [hreg] at hid
    obtain ⟨hfree, rfl⟩ := hid
    have hl := checkLinks_spec c.name (c.traits.getD []) [] required
    rcases hlk : checkLinks c.name (c.traits.getD []) [] required with e | r
    · rw [hlk] at hl
      exact iff_of_false (by simp) fun h => hl ⟨(hcons.mp h).2.2.1, by simp⟩
    rw [hlk] at hl
    obtain ⟨hnd, -, hr⟩ := hl
    rw [ih, loopOk_cons hr]
    exact ⟨fun h => ⟨hn, hfree, hnd, h⟩, fun h => h.2.2.2⟩

/-- The rules `validate_manifest` enforces once the schema check has passed. -/
structure ManifestRules (m : Manifest) : Prop where
  labels : ∀ l ∈ m.metadata.labels, validOamLabel l = true
  annotations : ∀ l ∈ m.metadata.annotations, validOamLabel l = true
  names_nodup : (m.components.map (·.name)).Nodup
  ids_nodup : (suppliedIds m.components).Nodup
  targets_nodup : ∀ c ∈ m.components, (linkTargets c).Nodup
  targets_named : ∀ c ∈ m.components, ∀ t ∈ linkTargets c, t ∈ m.components.map (·.name)

theorem loopOk_empty_iff (cs : List Component) :
    LoopOk cs [] [] [] ↔ (cs.map (·.name)).Nodup ∧ (suppliedIds cs).Nodup ∧
      (∀ c ∈ cs, (linkTargets c).Nodup) ∧ ∀ c ∈ cs, ∀ t ∈ linkTargets c, t ∈ cs.map (·.name) := by
  simp only [LoopOk, List.not_mem_nil, not_false_eq_true, implies_true, true_and, false_or,
    forall_exists_index, and_imp]
  exact ⟨fun ⟨h1, h2, h3, h4⟩ => ⟨h1, h2, h3, fun c hc t ht => h4 t c hc ht⟩,
    fun ⟨h1, h2, h3, h4⟩ => ⟨h1, h2, h3, fun t c hc ht => h4 c hc t ht⟩⟩

/-- Past the schema check, `validate_manifest` accepts exactly the manifests that keep the rules. -/
theorem validate_manifest_ok_iff (schemaErrors : Manifest → List (List PathChunk)) (m : Manifest)
    (hschema : schemaErrors m = []) :
    validateManifest schemaErrors m = .ok () ↔ ManifestRules m := by
  have hrules : ManifestRules m ↔ (∀ l ∈ m.metadata.labels, validOamLabel l = true) ∧
      (∀ l ∈ m.metadata.annotations, validOamLabel l = true) ∧ LoopOk m.components [] [] [] := by
    rw [loopOk_empty_iff]
    exact ⟨fun ⟨a, b, c, d, e, f⟩ => ⟨a, b, c, d, e, f⟩, fun ⟨a, b, c, d, e, f⟩ => ⟨a, b, c, d, e, f⟩⟩
  rw [hrules, ← checkComponents_ok_iff, ← List.all_eq_true, ← List.all_eq_true]
  simp only [validateManifest, hschema, List.isEmpty_nil, Bool.not_true, Bool.false_eq_true, if_false]
  cases m.metadata.labels.all validOamLabel <;> cases m.metadata.annotations.all validOamLabel <;>
    simp

/-- A manifest whose first component links to the second, at the empty schema. -/
theorem validate_manifest_ok_iff_forward_link :
    (fun _ => [] : Manifest → List (List PathChunk))
        ⟨⟨"app", [], []⟩, "v1", [⟨"web", .component none, some [⟨.link "db"⟩]⟩,
          ⟨"db", .capability none "ghcr.io/db:1", none⟩]⟩ = [] ∧
      (validateManifest (fun _ => [])
        ⟨⟨"app", [], []⟩, "v1", [⟨"web", .component none, some [⟨.link "db"⟩]⟩,
          ⟨"db", .capability none "ghcr.io/db:1", none⟩]⟩ = .ok () ↔
      ManifestRules ⟨⟨"app", [], []⟩, "v1", [⟨"web", .component none, some [⟨.link "db"⟩]⟩,
          ⟨"db", .capability none "ghcr.io/db:1", none⟩]⟩) :=
  ⟨rfl, validate_manifest_ok_iff _ _ rfl⟩

end Wadm
