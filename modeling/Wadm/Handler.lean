import Wadm.Validate
import Wadm.Prog

/-! # The request handlers

`Handler` of `handlers.rs`, one `Prog` per method. `send_error` becomes `Reply.error` and
`send_reply` of a response becomes the reply of that kind; the reply subject and the JSON
encoding are left out.
-/

namespace Wadm

/-! ## Requests and replies -/

inductive PutResult where
  | created
  | newVersion
  | error
deriving DecidableEq

structure PutModelResponse where
  result : PutResult
  totalVersions : Nat
  currentVersion : String
  message : String
  name : String
deriving DecidableEq

inductive GetResult where
  | success
  | notFound
  | error
deriving DecidableEq

structure GetModelResponse where
  result : GetResult
  message : String
  manifest : Option Manifest
deriving DecidableEq

structure VersionInfo where
  version : String
  deployed : Bool
deriving DecidableEq

structure VersionResponse where
  result : GetResult
  message : String
  versions : List VersionInfo
deriving DecidableEq

inductive DeleteResult where
  | deleted
  | noop
  | error
deriving DecidableEq

structure DeleteModelResponse where
  result : DeleteResult
  message : String
  undeploy : Bool
deriving DecidableEq

inductive DeployResult where
  | acknowledged
  | error
  | notFound
deriving DecidableEq

structure DeployModelResponse where
  result : DeployResult
  message : String
deriving DecidableEq

inductive StatusResult where
  | ok
  | notFound
  | error
deriving DecidableEq

/-- `Status`; its `components` are always empty and left out. -/
structure Status where
  version : String
  info : StatusInfo
deriving DecidableEq

structure StatusResponse where
  result : StatusResult
  message : String
  status : Option Status
deriving DecidableEq

/-- What a handler sends back: `send_error`'s `{"result": "error", "message": ...}`, or one of the
responses. -/
inductive Reply where
  | error (message : String)
  | put (r : PutModelResponse)
  | get (r : GetModelResponse)
  | models (data : List ModelSummary)
  | versions (r : VersionResponse)
  | delete (r : DeleteModelResponse)
  | deploy (r : DeployModelResponse)
  | status (r : StatusResponse)
deriving DecidableEq

/-- The body of `get`, `delete` and `deploy` requests. -/
structure VersionRequest where
  version : Option String
deriving DecidableEq

/-- A request body: nothing, or what `serde_json` made of the bytes. -/
inductive Payload (α : Type) where
  | empty
  | json (decoded : Except String α)

/-- `{e:?}` of the error `serde_json` gives for an empty body. -/
def eofError : String := "Error(\"EOF while parsing a value\", line: 1, column: 0)"

/-- A body for handlers that read an empty payload as the default request. -/
def Payload.orDefault (p : Payload α) (d : α) : Except String α :=
  match p with
  | .empty => .ok d
  | .json r => r

/-- A body for handlers that hand every payload to `serde_json`. -/
def Payload.decode (p : Payload α) : Except String α :=
  match p with
  | .empty => .error eofError
  | .json r => r

/-- What `put_model` takes from outside this crate: the errors of the compiled OAM schema, and
`validate_manifest_version` of `wadm_types`. -/
structure Checks where
  schemaErrors : Manifest → List (List PathChunk)
  versionErrors : String → List String

/-- Modelled from the spec: `is_valid_manifest_name` of `wadm_types`, the pattern
`[A-Za-z0-9_-]+`. -/
def isValidManifestName (name : String) : Bool :=
  !name.isEmpty && name.toList.all fun c => c.isAlphanum || c == '_' || c == '-'

def storageError : String := "Internal storage error"

/-- What a panic on `get_current` of an empty model says. -/
def emptyModelPanic : String := "Should always have at least one element"

def unwrapNonePanic : String := "called `Option::unwrap()` on a `None` value"

/-! ## Shared pieces -/

/-- `get_manifest_status`: the last message on the model's status subject. -/
def getManifestStatus (latticeId name : String) (k : Option StatusInfo → Prog α) : Prog α :=
  .call (.status s!"wadm.status.{latticeId}.{name}") k

/-- Publishes `undeployed`, and replies `failure` if that fails and `reply` if not. -/
def publishUndeployed (latticeId name : String) (failure reply : Reply) : Prog Reply :=
  .call (.undeployed latticeId name) fun
    | .error _ => .ret failure
    | .ok () => .ret reply

/-! ## `put_model` -/

def putModel (checks : Checks) (accountId : Option String) (latticeId : String)
    (parsed : Except String Manifest) : Prog Reply :=
  match parsed with
  | .error e => .ret (.error s!"Unable to parse manifest: {e}")
  | .ok manifest =>
    let version := manifest.version
    let manifestValidationErrors := checks.versionErrors version
    if !manifestValidationErrors.isEmpty then
      let shown := debugString ("\n".intercalate manifestValidationErrors)
      .ret (.error s!"invalid manifest version, errors: {shown}")
    else
    let manifestName := trim manifest.metadata.name
    if !isValidManifestName manifestName then
      .ret (.error (s!"Manifest name {manifestName} contains invalid characters. " ++
        "Manifest names can only contain alphanumeric characters, dashes, and underscores."))
    else
    .call (.get ⟨accountId, latticeId, manifestName⟩) fun
      | .error _ => .ret (.error storageError)
      | .ok found =>
        let (currentManifests, currentRevision) := found.getD (default, 0)
        match validateManifest checks.schemaErrors manifest with
        | .error errorMessage => .ret (.error errorMessage)
        | .ok () =>
          let resp : PutModelResponse :=
            { currentVersion := version
              result := if currentManifests.isEmpty then .created else .newVersion
              name := manifestName
              totalVersions := 0
              message := s!"Successfully put manifest {manifestName} {version}" }
          match currentManifests.addVersion manifest with
          | (false, _) => .ret (.error s!"Manifest version {version} already exists")
          | (true, currentManifests) =>
            let resp := { resp with totalVersions := currentManifests.count }
            .call (.set accountId latticeId currentManifests (some currentRevision)) fun
              | .error _ => .ret (.error storageError)
              | .ok () => .ret (.put resp)

/-- `put_model` reads the checks only on the manifest it is given. -/
theorem putModel_congr {checks checks' : Checks} {a : Option String} {l : String} {m : Manifest}
    (hv : checks.versionErrors m.version = checks'.versionErrors m.version)
    (hs : checks.schemaErrors m = checks'.schemaErrors m) :
    putModel checks a l (.ok m) = putModel checks' a l (.ok m) := by
  simp only [putModel, validateManifest, hv, hs]

/-- `put_model` replies under the trimmed name but creates the model under the name as given. -/
theorem put_model_stores_untrimmed_name (checks : Checks) (w : World) (m : Manifest)
    (hv : checks.versionErrors m.version = [])
    (hname : isValidManifestName (trim m.metadata.name) = true)
    (hschema : validateManifest checks.schemaErrors m = .ok ()) (a : Option String) (l : String)
    (hnew : w.store.get ⟨a, l, trim m.metadata.name⟩ = none)
    (habsent : w.store.get ⟨a, l, m.metadata.name⟩ = none) :
    (putModel checks a l (.ok m)).run [] w =
      ({ w with store := w.store.write ⟨a, l, m.metadata.name⟩ ⟨[m], none⟩ },
        .done (.put ⟨.created, 1, m.version,
          s!"Successfully put manifest {trim m.metadata.name} {m.version}", trim m.metadata.name⟩)) := by
  have hset : w.store.set a l ⟨[m], none⟩ (some 0) =
      .ok (w.store.write ⟨a, l, m.metadata.name⟩ ⟨[m], none⟩) := by
    simp [Store.set, Store.revisionMatches, habsent, StoredManifest.name, StoredManifest.getCurrent]
  simp [putModel, hv, hname, hnew, hschema, StoredManifest.addVersion, hset, StoredManifest.count]

/-- A manifest named ` app`, with a space before its name. -/
def spacedApp : Manifest := ⟨⟨" app", [], []⟩, "v1", []⟩

theorem put_model_stores_untrimmed_name_spacedApp :
    isValidManifestName (trim spacedApp.metadata.name) = true ∧
      validateManifest (fun _ => []) spacedApp = .ok () ∧
      (putModel ⟨fun _ => [], fun _ => []⟩ none "default" (.ok spacedApp)).run []
          ⟨Store.empty, [], fun _ => none⟩ =
        (⟨Store.empty.write ⟨none, "default", " app"⟩ ⟨[spacedApp], none⟩, [], fun _ => none⟩,
          .done (.put ⟨.created, 1, "v1", "Successfully put manifest app v1", "app"⟩)) := by
  have htrim : trim spacedApp.metadata.name = "app" := by decide
  have hname : isValidManifestName (trim spacedApp.metadata.name) = true := by rw [htrim]; decide
  have hschema : validateManifest (fun _ => []) spacedApp = .ok () := rfl
  refine ⟨hname, hschema, ?_⟩
  have h := put_model_stores_untrimmed_name ⟨fun _ => [], fun _ => []⟩ ⟨Store.empty, [], fun _ => none⟩
    spacedApp rfl hname hschema none "default" rfl rfl
  rwa [htrim] at h

/-! ## Reading models -/

def getModel (accountId : Option String) (latticeId name : String)
    (payload : Payload VersionRequest) : Prog Reply :=
  match payload.orDefault ⟨none⟩ with
  | .error e => .ret (.error s!"Unable to parse get model request: {e}")
  | .ok req =>
    .call (.get ⟨accountId, latticeId, name⟩) fun
      | .ok none => .ret (.get ⟨.notFound, s!"Model with the name {name} not found", none⟩)
      | .error _ => .ret (.error storageError)
      | .ok (some (manifests, _)) =>
        match req.version with
        | some version =>
          match manifests.getVersion version with
          | some current =>
            .ret (.get ⟨.success, s!"Successfully fetched model {name} {version}", some current⟩)
          | none =>
            .ret (.get ⟨.notFound, s!"Model {name} with version {version} doesn't exist", none⟩)
        | none =>
          match manifests.getCurrent with
          | some current => .ret (.get ⟨.success, s!"Successfully fetched model {name}", some current⟩)
          | none => .abort emptyModelPanic

/-- The loop of `list_models` that puts each model's status on its summary. -/
def overlayStatus (latticeId : String) : List ModelSummary → List ModelSummary → Prog Reply
  | [], data => .ret (.models data)
  | model :: rest, data =>
    getManifestStatus latticeId model.name fun
      | some status => overlayStatus latticeId rest
          (data ++ [{ model with status := status.statusType, statusMessage := some status.message }])
      | none => overlayStatus latticeId rest
          (data ++ [{ model with status := .undeployed, statusMessage := none }])

def listModels (accountId : Option String) (latticeId : String) : Prog Reply :=
  .call (.list accountId latticeId) fun
    | .error _ => .ret (.error storageError)
    | .ok data => overlayStatus latticeId data []

def listVersions (accountId : Option String) (latticeId name : String) : Prog Reply :=
  .call (.get ⟨accountId, latticeId, name⟩) fun
    | .ok (some (manifest, _)) =>
      .ret (.versions ⟨.success, s!"Successfully fetched versions for model {name}",
        manifest.allVersions.map fun v => ⟨v, manifest.isDeployed v⟩⟩)
    | .ok none => .ret (.versions ⟨.notFound, s!"Model with the name {name} not found", []⟩)
    | .error _ => .ret (.error storageError)

def modelStatus (accountId : Option String) (latticeId name : String) : Prog Reply :=
  .call (.get ⟨accountId, latticeId, name⟩) fun
    | .ok none => .ret (.status ⟨.notFound, s!"Model with the name {name} not found", none⟩)
    | .error _ => .ret (.error storageError)
    | .ok (some (manifests, _)) =>
      match manifests.getCurrent with
      | none => .abort emptyModelPanic
      | some current =>
        getManifestStatus latticeId name fun info =>
          .ret (.status ⟨.ok, s!"Successfully fetched status for model {name}",
            some ⟨current.version, info.getD default⟩⟩)

/-! ## `delete_model` -/

/-- The end of `delete_model`: an undeploy notification when the reply asks for one, and also
on a noop. -/
def deleteNotify (latticeId name : String) (replyData : DeleteModelResponse) : Prog Reply :=
  if replyData.undeploy || replyData.result == .noop then
    publishUndeployed latticeId name
      (.delete ⟨.error, "Error notifying processors of newly undeployed manifest on delete. " ++
        "This is likely a transient error, so please retry the request. Please note that the " ++
        "response will say it is a noop, but will notify the processors", false⟩)
      (.delete replyData)
  else .ret (.delete replyData)

/-- `delete_model` with a version: delete it, and the whole model when it was the last one. -/
def deleteVersionOf (accountId : Option String) (latticeId name version : String) : Prog Reply :=
  .call (.get ⟨accountId, latticeId, name⟩) fun
    | .ok (some (current, currentRevision)) =>
      match current.deleteVersion version with
      | (deleted, current) =>
        if deleted && !current.isEmpty then
          let (undeploy, current) :=
            if (current.deployedVersion.map (· == version)).getD false then (true, current.undeploy.2)
            else (false, current)
          .call (.set accountId latticeId current (some currentRevision)) fun
            | .ok () => deleteNotify latticeId name
                ⟨.deleted, s!"Successfully deleted version {version} of model {name}", undeploy⟩
            | .error _ => deleteNotify latticeId name ⟨.error, storageError, false⟩
        else if deleted && current.isEmpty then
          .call (.delete ⟨accountId, latticeId, name⟩) fun
            | .ok () => deleteNotify latticeId name
                ⟨.deleted, s!"Successfully deleted last version of model {name}", true⟩
            | .error _ => deleteNotify latticeId name ⟨.deleted, storageError, false⟩
        else deleteNotify latticeId name ⟨.noop, s!"Model version {version} doesn't exist", false⟩
    | .ok none => deleteNotify latticeId name ⟨.noop, s!"Model {name} doesn't exist", false⟩
    | .error _ => deleteNotify latticeId name ⟨.error, storageError, false⟩

def deleteModel (accountId : Option String) (latticeId name : String)
    (payload : Payload VersionRequest) : Prog Reply :=
  match payload.decode with
  | .error e => .ret (.error s!"Unable to parse delete model request: {e}")
  | .ok req =>
    match req.version with
    | some version => deleteVersionOf accountId latticeId name version
    | none =>
      .call (.delete ⟨accountId, latticeId, name⟩) fun
        | .ok () => deleteNotify latticeId name ⟨.deleted, s!"Successfully deleted model {name}", true⟩
        | .error _ => deleteNotify latticeId name ⟨.error, storageError, false⟩

/-! ## `deploy_model` -/

/-- `existing_provider_refs`: for each repository, the version and the model that deploys it. -/
structure ProviderRefs where
  get : String → Option (String × String)

def ProviderRefs.empty : ProviderRefs := ⟨fun _ => none⟩

/-- `HashMap::insert`: a later entry for a repository replaces the earlier one. -/
def ProviderRefs.insert (refs : ProviderRefs) (repository : String) (entry : String × String) :
    ProviderRefs :=
  ⟨fun r => if r = repository then some entry else refs.get r⟩

/-- The manifest `deploy_model` checks: the current one for no version or `latest`, otherwise
the requested one, and an error reply when that is not stored. -/
def resolveStaged (name : String) (manifests : StoredManifest) (version : Option String)
    (k : Manifest → Prog Reply) : Prog Reply :=
  let current := match manifests.getCurrent with
    | some m => k m
    | none => .abort emptyModelPanic
  match version with
  | some v =>
    if v = latestVersion then current
    else
      match manifests.getVersion v with
      | some model => k model
      | none => .ret (.deploy ⟨.error,
          s!"Model with the name {name} does not have the specified version to deploy"⟩)
  | none => current

/-- The inner loop over the capability components of one deployed manifest. -/
def insertProviderRefs (modelName : String) (refs : ProviderRefs) : List Component → ProviderRefs
  | [] => refs
  | component :: rest =>
    let refs := match component.properties with
      | .capability _ imageName =>
        match parseImageRef imageName with
        | some (refLink, refVersion) => refs.insert refLink (refVersion, modelName)
        | none => refs
      | .component _ => refs
    insertProviderRefs modelName refs rest

/-- The loop over the listed models that builds `existing_provider_refs` from the deployed
manifests of the other models. -/
def collectProviderRefs (accountId : Option String) (latticeId name : String) :
    List ModelSummary → ProviderRefs → (ProviderRefs → Prog Reply) → Prog Reply
  | [], refs, k => k refs
  | modelSummary :: rest, refs, k =>
    if modelSummary.deployedVersion.isSome then
      .call (.get ⟨accountId, latticeId, modelSummary.name⟩) fun
        | .error _ => .ret (.error storageError)
        | .ok found =>
          let storedManifest := (found.map Prod.fst).getD default
          let refs :=
            if storedManifest.name != name then
              match storedManifest.getDeployed with
              | some deployedManifest =>
                insertProviderRefs storedManifest.name refs deployedManifest.components
              | none => refs
            else refs
          collectProviderRefs accountId latticeId name rest refs k
    else collectProviderRefs accountId latticeId name rest refs k

/-- The loop over the staged manifest's capabilities: the first image whose repository is
deployed elsewhere at another version, with the model that deploys it. -/
def findConflict (existing : ProviderRefs) : List Component → Option (String × String)
  | [] => none
  | component :: rest =>
    match component.properties with
    | .capability _ imageName =>
      match parseImageRef imageName with
      | some (refLink, refVersion) =>
        match existing.get refLink with
        | some (oldVersion, oldManifestName) =>
          if oldVersion != refVersion then some (imageName, oldManifestName)
          else findConflict existing rest
        | none => findConflict existing rest
      | none => findConflict existing rest
    | .component _ => findConflict existing rest

/-- The reply that turns a deploy away for a provider image that another model deploys at
another version. -/
def providerConflict (imageName oldManifestName : String) : Reply :=
  .error (s!"Provider {imageName} is already deployed with a different " ++
    s!"version in {oldManifestName}.")

/-- The last steps of `deploy_model`: store the model, then notify with the deployed manifest,
whether or not the store took it. -/
def storeAndNotify (accountId : Option String) (latticeId name : String)
    (manifests : StoredManifest) (manifest : Manifest) (currentRevision : Nat) : Prog Reply :=
  let deployed := manifest.version
  .call (.set accountId latticeId manifests (some currentRevision)) fun res =>
    let reply : DeployModelResponse := match res with
      | .ok () => ⟨.acknowledged, s!"Successfully deployed model {name} {deployed}"⟩
      | .error _ => ⟨.error, storageError⟩
    .call (.deployed latticeId manifest) fun
      | .error _ => .ret (.deploy ⟨.error, "Error notifying processors of newly deployed " ++
          "manifest. This is likely a transient error, so please retry the request"⟩)
      | .ok () => .ret (.deploy reply)

/-- The end of `deploy_model`: deploy, find the deployed manifest (the `SAFETY` unwraps), store
and notify. -/
def deployAndNotify (accountId : Option String) (latticeId name : String)
    (version : Option String) (manifests : StoredManifest) (currentRevision : Nat) : Prog Reply :=
  match manifests.deploy version with
  | (false, _) => .ret (.deploy ⟨.error,
      s!"Model with the name {name} does not have the specified version to deploy"⟩)
  | (true, manifests) =>
    match manifests.deployedVersion with
    | none => .abort unwrapNonePanic
    | some deployedVersion =>
      match manifests.getVersion deployedVersion with
      | none => .abort unwrapNonePanic
      | some manifest => storeAndNotify accountId latticeId name manifests manifest currentRevision

def deployModel (accountId : Option String) (latticeId name : String)
    (payload : Payload VersionRequest) : Prog Reply :=
  match payload.orDefault ⟨none⟩ with
  | .error e => .ret (.error s!"Unable to parse deploy model request: {e}")
  | .ok req =>
    .call (.get ⟨accountId, latticeId, name⟩) fun
      | .ok none => .ret (.deploy ⟨.notFound, s!"Model with the name {name} not found"⟩)
      | .error _ => .ret (.error storageError)
      | .ok (some (manifests, currentRevision)) =>
        .call (.list accountId latticeId) fun
          | .error _ => .ret (.error storageError)
          | .ok storedModels =>
            resolveStaged name manifests req.version fun stagedModel =>
            collectProviderRefs accountId latticeId name storedModels .empty fun existing =>
            match findConflict existing stagedModel.components with
            | some (imageName, oldManifestName) => .ret (providerConflict imageName oldManifestName)
            | none => deployAndNotify accountId latticeId name req.version manifests currentRevision

/-! ## `undeploy_model` -/

/-- The end of `undeploy_model`: every acknowledged reply resends the undeploy. -/
def undeployNotify (latticeId name : String) (reply : DeployModelResponse) : Prog Reply :=
  if reply.result == .acknowledged then
    publishUndeployed latticeId name
      (.deploy ⟨.error, "Error notifying processors of undeployed manifest. This is likely a " ++
        "transient error, so please retry the request"⟩)
      (.deploy reply)
  else .ret (.deploy reply)

/-- `undeploy_model`; its body has no fields, so any that decodes will do. -/
def undeployModel (accountId : Option String) (latticeId name : String) (payload : Payload Unit) :
    Prog Reply :=
  match payload.orDefault () with
  | .error e => .ret (.error s!"Unable to parse deploy model request: {e}")
  | .ok () =>
    .call (.get ⟨accountId, latticeId, name⟩) fun
      | .ok none => .ret (.deploy ⟨.notFound, s!"Model with the name {name} not found"⟩)
      | .error _ => .ret (.error storageError)
      | .ok (some (manifests, currentRevision)) =>
        match manifests.undeploy with
        | (true, manifests) =>
          .call (.set accountId latticeId manifests (some currentRevision)) fun
            | .ok () => undeployNotify latticeId name
                ⟨.acknowledged, s!"Successfully undeployed model {name}"⟩
            | .error _ => undeployNotify latticeId name ⟨.error, storageError⟩
        | (false, _) => undeployNotify latticeId name
            ⟨.acknowledged, s!"Model {name} was already undeployed"⟩

/-! ## The tails that only publish -/

/-- Publishing leaves the store as it was. -/
theorem publishUndeployed_store {w : World} {Q : Store → Prop} (hq : Q w.store) (l n : String)
    (failure reply : Reply) : (publishUndeployed l n failure reply).Always (fun w' _ => Q w'.store) w :=
  Prog.always_undeployed fun a => by rcases a with _ | _ <;> exact hq

theorem deleteNotify_store {w : World} {Q : Store → Prop} (hq : Q w.store) (l n : String)
    (r : DeleteModelResponse) : (deleteNotify l n r).Always (fun w' _ => Q w'.store) w := by
  unfold deleteNotify
  split
  · exact publishUndeployed_store hq _ _ _ _
  · exact hq

theorem undeployNotify_store {w : World} {Q : Store → Prop} (hq : Q w.store) (l n : String)
    (r : DeployModelResponse) : (undeployNotify l n r).Always (fun w' _ => Q w'.store) w := by
  unfold undeployNotify
  split
  · exact publishUndeployed_store hq _ _ _ _
  · exact hq

/-! ## Dispatch -/

/-- A request as the server routes it to a handler method. -/
inductive Request where
  | put (accountId : Option String) (latticeId : String) (manifest : Except String Manifest)
  | get (accountId : Option String) (latticeId name : String) (payload : Payload VersionRequest)
  | list (accountId : Option String) (latticeId : String)
  | versions (accountId : Option String) (latticeId name : String)
  | delete (accountId : Option String) (latticeId name : String) (payload : Payload VersionRequest)
  | deploy (accountId : Option String) (latticeId name : String) (payload : Payload VersionRequest)
  | undeploy (accountId : Option String) (latticeId name : String) (payload : Payload Unit)
  | status (accountId : Option String) (latticeId name : String)

def Request.handle (checks : Checks) : Request → Prog Reply
  | .put a l m => putModel checks a l m
  | .get a l n p => getModel a l n p
  | .list a l => listModels a l
  | .versions a l n => listVersions a l n
  | .delete a l n p => deleteModel a l n p
  | .deploy a l n p => deployModel a l n p
  | .undeploy a l n p => undeployModel a l n p
  | .status a l n => modelStatus a l n

end Wadm
