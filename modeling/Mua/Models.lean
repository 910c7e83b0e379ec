import Mua.Openrouter

/-! # The model catalog

provider/models.c: one fetch of the catalog gives every window of the session. The cache keeps
the entries of the first catalog that arrives whole; until one does, a look-up of an unknown model
asks for it again.
-/

namespace Mua.Models

open Openrouter

def kModelsBodyCap : Nat := 8 * 1024 * 1024

def kModelsCacheMax : Nat := 4096

def defaultModel : Bytes := ascii "anthropic/claude-sonnet-4.6"

/-- An id with its window in tokens, 0 if the catalog does not tell. -/
structure CatalogEntry where
  id : Bytes
  window : Int
  deriving DecidableEq, Repr

structure Catalog where
  entries : List CatalogEntry := []
  fetched : Bool := false
  deriving DecidableEq, Repr

structure ModelsFetch where
  body : Buf kModelsBodyCap := bufInit kModelsBodyCap
  status : Int := 0
  done : Bool := false
  ok : Bool := false

inductive FetchEvent
  | status (code : Int)
  | chunk (bytes : Bytes)
  /-- The transfer is over; `ok` is CURLE_OK. -/
  | complete (ok : Bool) (httpStatus : Int)

def ModelsFetch.step (fetch : ModelsFetch) : FetchEvent → ModelsFetch
  | .status code => { fetch with status := code }
  -- false past the cap: the transfer is aborted
  | .chunk bytes => { fetch with body := (bufAppend fetch.body bytes).getD fetch.body }
  | .complete ok httpStatus =>
    let status := if httpStatus ≠ 0 then httpStatus else fetch.status
    { fetch with ok := ok && status = 200, done := true }

/-- The loop runs until the transfer is over, or there is nothing left to wait for. -/
def ModelsFetch.run (fetch : ModelsFetch) : List FetchEvent → ModelsFetch
  | [] => fetch
  | e :: rest => if fetch.done then fetch else (fetch.step e).run rest

/-- The body of a catalog, or none when no whole catalog came; without an answer there was no
client or no request. -/
def fetchCatalogBody : Option (List FetchEvent) → Option Bytes
  | none => none
  | some events =>
    let fetch := ModelsFetch.run {} events
    if fetch.ok then some fetch.body.data else none

variable (lib : JsonLib)

def entryWindow (m : CJson) : Int :=
  let topCtx := ((jsonGetObj m (ascii "top_provider")).bind fun top =>
    jsonGetInt lib top (ascii "context_length")).getD 0
  let ownCtx := (jsonGetInt lib m (ascii "context_length")).getD 0
  if 0 < topCtx then topCtx else if 0 < ownCtx then ownCtx else 0

def populateLoop (entries : List CatalogEntry) : List CJson → List CatalogEntry
  | [] => entries
  | m :: rest =>
    if kModelsCacheMax ≤ entries.length then entries
    else
      match jsonGetCstr m (ascii "id") with
      | none => populateLoop entries rest
      | some id => populateLoop (entries ++ [⟨id, entryWindow lib m⟩]) rest

def modelsCachePopulate (body : Bytes) : Catalog :=
  match if body = [] then none else (jsonParse lib body kModelsBodyCap).toOption with
  | none => ⟨[], true⟩
  | some doc =>
    match jsonGetArr doc (ascii "data") with
    | some (.array items) => ⟨populateLoop lib [] items, true⟩
    | _ => ⟨[], true⟩

def findEntry (entries : List CatalogEntry) (id : Bytes) : Option CatalogEntry :=
  entries.find? fun entry => entry.id = id

def modelId : Option Bytes → Bytes
  | none => defaultModel
  | some id => if id = [] then defaultModel else id

/-- The window of a model, the cache after it, and whether the catalog was asked for. -/
def modelsContextLength (catalog : Catalog) (model : Option Bytes)
    (answer : Option (List FetchEvent)) : Int × Catalog × Bool :=
  match findEntry catalog.entries (modelId model) with
  | some entry => (entry.window, catalog, false)
  | none =>
    if catalog.fetched then (0, catalog, false)
    else
      let catalog := ((fetchCatalogBody answer).map (modelsCachePopulate lib)).getD catalog
      (((findEntry catalog.entries (modelId model)).map CatalogEntry.window).getD 0, catalog, true)

def Catalog.window (catalog : Catalog) (model : Option Bytes) : Int :=
  ((findEntry catalog.entries (modelId model)).map CatalogEntry.window).getD 0

variable {lib} {catalog : Catalog} {model : Option Bytes} {answer : Option (List FetchEvent)}

/-- What one look-up does: the cache answers, or it is filled, or nothing came. -/
inductive LooksUp (lib : JsonLib) (catalog : Catalog) (model : Option Bytes) :
    Int × Catalog × Bool → Prop
  | known (hKnown : catalog.fetched = true ∨ findEntry catalog.entries (modelId model) ≠ none) :
    LooksUp lib catalog model (catalog.window model, catalog, false)
  | filled (hNew : catalog.fetched = false) (body : Bytes) :
    LooksUp lib catalog model
      ((modelsCachePopulate lib body).window model, modelsCachePopulate lib body, true)
  | failed (hNew : catalog.fetched = false) (hWindow : catalog.window model = 0) :
    LooksUp lib catalog model (0, catalog, true)

theorem modelsContextLength_cases :
    LooksUp lib catalog model (modelsContextLength lib catalog model answer) := by
  rw [modelsContextLength]
  cases hFind : findEntry catalog.entries (modelId model) with
  | some entry =>
    have hWindow : catalog.window model = entry.window := by
      rw [Catalog.window, hFind]
      rfl
    dsimp only
    rw [← hWindow]
    exact .known (.inr (by rw [hFind]; exact Option.some_ne_none _))
  | none =>
    have hWindow : catalog.window model = 0 := by
      rw [Catalog.window, hFind]
      rfl
    dsimp only
    split
    · rename_i hFetched
      rw [← hWindow]
      exact .known (.inl hFetched)
    · rename_i hFetched
      have hNew : catalog.fetched = false := Bool.eq_false_iff.mpr hFetched
      cases fetchCatalogBody answer with
      | none =>
        change LooksUp lib catalog model (catalog.window model, catalog, true)
        rw [hWindow]
        exact .failed hNew hWindow
      | some body => exact .filled hNew body

theorem populate_fetched (body : Bytes) : (modelsCachePopulate lib body).fetched = true := by
  rw [modelsCachePopulate]
  split
  · rfl
  · split <;> rfl

end Mua.Models
