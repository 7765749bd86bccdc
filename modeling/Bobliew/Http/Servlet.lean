import Bobliew.Lib.Effects
import Bobliew.Lib.Standing
import Bobliew.Http.Server

/-!
# The table of servlets

`ServletDispatch` keeps the creators of the servlets registered for exact uris in a map, and those
registered for patterns in a vector. Registering a pattern forgets one entry of it and puts the new one at
the end; deleting forgets one entry.

After any calls the vector holds the patterns whose last registration was not deleted, each once and in the
order of these registrations, so that one entry was enough to forget. A uri goes to the servlet registered
for exactly it, otherwise to the first pattern of the vector that it matches, otherwise to the default.
-/

namespace Bobliew.Http

open Standing (Entry)

/-! ## Servlets and what makes them -/

/-- A member of a null object is called. -/
inductive NullObject where
  | dereferenced

/-- A request in progress: what a servlet is given, with everything it can reach through the session. -/
structure Serving (W : Type) where
  request : HttpRequest
  response : ServerResponse
  session : W

/-- A `Servlet` object: its name and what `handle` does. -/
structure Servlet (W : Type) where
  m_name : Bytes
  handle : Effect (Serving W) NullObject ℤ

/-- An `IServletCreator` object: one that holds a servlet, or one of another class with its `get`. -/
inductive IServletCreator (W : Type) where
  | holdServletCreator (m_servlet : Option (Servlet W))
  | other (get : Effect (Serving W) NullObject (Option (Servlet W)))

variable {W : Type}

/-- `IServletCreator::get`. -/
def IServletCreator.get : IServletCreator W → Effect (Serving W) NullObject (Option (Servlet W))
  | .holdServletCreator m_servlet => pure m_servlet
  | .other get => get

/-- `creator->get()` through a pointer. -/
def callGet : Option (IServletCreator W) → Effect (Serving W) NullObject (Option (Servlet W))
  | none => Effect.throw .dereferenced
  | some creator => creator.get

/-- `FunctionServlet`. -/
def functionServlet (cb : Effect (Serving W) NullObject ℤ) : Servlet W where
  m_name := asciiText "FunctionServlet".toList
  handle := cb

/-- The page of a `NotFoundServlet`. -/
def notFoundContent (name : Bytes) : Bytes :=
  asciiText ("<html><head><title>404 Not Found" ++
    "</title></head><body><center><h1>404 Not Found</h1></center>" ++ "<hr><center>").toList ++
    name ++ asciiText "</center></body></html>".toList

/-- What a `NotFoundServlet` makes of a response. -/
def notFoundResponse (name : Bytes) (response : ServerResponse) : ServerResponse :=
  let named := ({ response with status := 404 }).setHeader (asciiText "Server".toList)
    (asciiText "bobliew/1.0.0".toList)
  { named.setHeader (asciiText "Content-Type".toList) (asciiText "text/html".toList) with
    body := notFoundContent name }

/-- `NotFoundServlet`. -/
def notFoundServlet (name : Bytes) : Servlet W where
  m_name := asciiText "NotFoundServlet".toList
  handle := fun serving =>
    (.ok 0, { serving with response := notFoundResponse name serving.response })

/-! ## The dispatch -/

/-- The members of a `ServletDispatch`. -/
structure ServletDispatch (W : Type) where
  m_datas : Bytes → Option (Option (IServletCreator W))
  m_globs : List (Bytes × Option (IServletCreator W))
  m_default : Option (Servlet W)

/-- The characters of a string up to the first null, as a C function sees them. -/
def cStr (s : Bytes) : Bytes := s.takeWhile (· != 0)

namespace ServletDispatch

variable (d : ServletDispatch W) (uri : Bytes)

/-- `ServletDispatch::ServletDispatch`. -/
def new : ServletDispatch W where
  m_datas := fun _ => none
  m_globs := []
  m_default := some (notFoundServlet (asciiText "bobliew/1.0".toList))

/-- `ServletDispatch::setDefault`. -/
def setDefault (v : Option (Servlet W)) : ServletDispatch W := { d with m_default := v }

/-- `ServletDispatch::addServletCreator`. -/
def addServletCreator (creator : Option (IServletCreator W)) : ServletDispatch W :=
  { d with m_datas := Function.update d.m_datas uri (some creator) }

/-- `ServletDispatch::addServlet`. -/
def addServlet (slt : Option (Servlet W)) : ServletDispatch W :=
  { d with m_datas := Function.update d.m_datas uri (some (some (.holdServletCreator slt))) }

/-- `ServletDispatch::addServlet` of a callback. -/
def addServletCallback (cb : Effect (Serving W) NullObject ℤ) : ServletDispatch W :=
  { d with m_datas :=
      Function.update d.m_datas uri (some (some (.holdServletCreator (some (functionServlet cb))))) }

/-- The loop that erases the first entry of a pattern. -/
def eraseGlob : List (Bytes × Option (IServletCreator W)) → List (Bytes × Option (IServletCreator W))
  | [] => []
  | it :: rest => if it.1 = uri then rest else it :: eraseGlob rest

/-- `ServletDispatch::addGlobServletCreator`. -/
def addGlobServletCreator (creator : Option (IServletCreator W)) : ServletDispatch W :=
  { d with m_globs := eraseGlob uri d.m_globs ++ [(uri, creator)] }

/-- `ServletDispatch::addGlobServlet`. -/
def addGlobServlet (slt : Option (Servlet W)) : ServletDispatch W :=
  { d with m_globs := eraseGlob uri d.m_globs ++ [(uri, some (.holdServletCreator slt))] }

/-- `ServletDispatch::addGlobServlet` of a callback. -/
def addGlobServletCallback (cb : Effect (Serving W) NullObject ℤ) : ServletDispatch W :=
  d.addGlobServlet uri (some (functionServlet cb))

/-- `ServletDispatch::delServlet`. -/
def delServlet : ServletDispatch W := { d with m_datas := Function.update d.m_datas uri none }

/-- `ServletDispatch::delGlobServlet`. -/
def delGlobServlet : ServletDispatch W := { d with m_globs := eraseGlob uri d.m_globs }

/-- `ServletDispatch::getServlet`. -/
def getServlet : Effect (Serving W) NullObject (Option (Servlet W)) :=
  match d.m_datas uri with
  | none => pure none
  | some creator => callGet creator

/-- `ServletDispatch::getGlobServlet`. -/
def getGlobServlet : Effect (Serving W) NullObject (Option (Servlet W)) :=
  match d.m_globs.find? fun it => decide (it.1 = uri) with
  | none => pure none
  | some it => callGet it.2

variable (fnmatch : Bytes → Bytes → ℤ)

/-- `ServletDispatch::getMatchedServlet`, over `fnmatch` without flags. -/
def getMatchedServlet : Effect (Serving W) NullObject (Option (Servlet W)) :=
  match d.m_datas uri with
  | some creator => callGet creator
  | none =>
    match d.m_globs.find? fun it => fnmatch (cStr it.1) (cStr uri) == 0 with
    | some it => callGet it.2
    | none => pure d.m_default

/-- `ServletDispatch::handle`. -/
def handle : Effect (Serving W) NullObject ℤ := fun serving =>
  (do
    let slt ← d.getMatchedServlet serving.request.path fnmatch
    match slt with
    | some slt => do
      let _ ← slt.handle
      pure 0
    | none => pure 0 : Effect (Serving W) NullObject ℤ) serving

end ServletDispatch

/-! ## Calls -/

/-- A call that changes the tables. -/
inductive DispatchCall (W : Type) where
  | addServlet (uri : Bytes) (slt : Option (Servlet W))
  | addServletCallback (uri : Bytes) (cb : Effect (Serving W) NullObject ℤ)
  | addServletCreator (uri : Bytes) (creator : Option (IServletCreator W))
  | addGlobServlet (uri : Bytes) (slt : Option (Servlet W))
  | addGlobServletCallback (uri : Bytes) (cb : Effect (Serving W) NullObject ℤ)
  | addGlobServletCreator (uri : Bytes) (creator : Option (IServletCreator W))
  | delServlet (uri : Bytes)
  | delGlobServlet (uri : Bytes)

namespace DispatchCall

/-- Make a call. -/
def run (d : ServletDispatch W) : DispatchCall W → ServletDispatch W
  | .addServlet uri slt => d.addServlet uri slt
  | .addServletCallback uri cb => d.addServletCallback uri cb
  | .addServletCreator uri creator => d.addServletCreator uri creator
  | .addGlobServlet uri slt => d.addGlobServlet uri slt
  | .addGlobServletCallback uri cb => d.addGlobServletCallback uri cb
  | .addGlobServletCreator uri creator => d.addGlobServletCreator uri creator
  | .delServlet uri => d.delServlet uri
  | .delGlobServlet uri => d.delGlobServlet uri

/-- What a call says about the servlets of exact uris. -/
def exactEntry? : DispatchCall W → Option (Entry Bytes (Option (IServletCreator W)))
  | .addServlet uri slt => some (.put uri (some (.holdServletCreator slt)))
  | .addServletCallback uri cb => some (.put uri (some (.holdServletCreator (some (functionServlet cb)))))
  | .addServletCreator uri creator => some (.put uri creator)
  | .delServlet uri => some (.drop uri)
  | _ => none

/-- What a call says about the servlets of patterns. -/
def glob? : DispatchCall W → Option (Entry Bytes (Option (IServletCreator W)))
  | .addGlobServlet uri slt => some (.put uri (some (.holdServletCreator slt)))
  | .addGlobServletCallback uri cb => some (.put uri (some (.holdServletCreator (some (functionServlet cb)))))
  | .addGlobServletCreator uri creator => some (.put uri creator)
  | .delGlobServlet uri => some (.drop uri)
  | _ => none

/-- What a request for an exact uri is to get after a call: the servlet that was registered, a servlet of the
callback, or what the creator makes of the request; a null creator is dereferenced. -/
def exactGives? : DispatchCall W → Option (Entry Bytes (Effect (Serving W) NullObject (Option (Servlet W))))
  | .addServlet uri slt => some (.put uri (pure slt))
  | .addServletCallback uri cb =>
      some (.put uri (pure (some { m_name := asciiText "FunctionServlet".toList, handle := cb })))
  | .addServletCreator uri (some (.holdServletCreator slt)) => some (.put uri (pure slt))
  | .addServletCreator uri (some (.other get)) => some (.put uri get)
  | .addServletCreator uri none => some (.put uri (Effect.throw .dereferenced))
  | .delServlet uri => some (.drop uri)
  | _ => none

/-- The same for a uri that a pattern matches. -/
def globGives? : DispatchCall W → Option (Entry Bytes (Effect (Serving W) NullObject (Option (Servlet W))))
  | .addGlobServlet uri slt => some (.put uri (pure slt))
  | .addGlobServletCallback uri cb =>
      some (.put uri (pure (some { m_name := asciiText "FunctionServlet".toList, handle := cb })))
  | .addGlobServletCreator uri (some (.holdServletCreator slt)) => some (.put uri (pure slt))
  | .addGlobServletCreator uri (some (.other get)) => some (.put uri get)
  | .addGlobServletCreator uri none => some (.put uri (Effect.throw .dereferenced))
  | .delGlobServlet uri => some (.drop uri)
  | _ => none

/-- The creators in the map make what the calls say for exact uris. -/
theorem exactGives?_eq (call : DispatchCall W) : call.exactGives? = call.exactEntry?.map (Entry.map callGet) := by
  rcases call with _ | _ | ⟨_, _ | _ | _⟩ | _ | _ | _ | _ | _ <;> rfl

/-- The creators in the vector make what the calls say for patterns. -/
theorem globGives?_eq (call : DispatchCall W) : call.globGives? = call.glob?.map (Entry.map callGet) := by
  rcases call with _ | _ | _ | _ | _ | ⟨_, _ | _ | _⟩ | _ | _ <;> rfl

/-- The servlets for exact uris after calls. -/
theorem registered_exactGives? (calls : List (DispatchCall W)) (uri : Bytes) :
    Standing.registered (calls.filterMap exactGives?) uri =
      (Standing.registered (calls.filterMap exactEntry?) uri).map callGet := by
  rw [← Standing.registered_map, List.map_filterMap]
  exact congrArg (fun gives => Standing.registered (calls.filterMap gives) uri) (funext exactGives?_eq)

/-- The servlet for a pattern after calls. -/
theorem registered_globGives? (calls : List (DispatchCall W)) (uri : Bytes) :
    Standing.registered (calls.filterMap globGives?) uri =
      (Standing.registered (calls.filterMap glob?) uri).map callGet := by
  rw [← Standing.registered_map, List.map_filterMap]
  exact congrArg (fun gives => Standing.registered (calls.filterMap gives) uri) (funext globGives?_eq)

/-- The servlets for patterns after calls. -/
theorem standing_globGives? (calls : List (DispatchCall W)) :
    Standing.standing (calls.filterMap globGives?) =
      (Standing.standing (calls.filterMap glob?)).map fun it => (it.1, callGet it.2) := by
  rw [← Standing.standing_map, List.map_filterMap]
  exact congrArg (fun gives => Standing.standing (calls.filterMap gives)) (funext globGives?_eq)

end DispatchCall

namespace ServletDispatch

variable {d : ServletDispatch W}

/-- A dispatch after calls. -/
def after (d : ServletDispatch W) (calls : List (DispatchCall W)) : ServletDispatch W :=
  calls.foldl DispatchCall.run d

/-- The loop forgets the first entry of its pattern. -/
theorem eraseGlob_eq (uri : Bytes) (globs : List (Bytes × Option (IServletCreator W))) :
    eraseGlob uri globs = Standing.forget uri globs := by
  induction globs with
  | nil => rfl
  | cons it rest ih =>
    simp only [eraseGlob, Standing.forget, List.eraseP_cons] at ih ⊢
    by_cases h : it.1 = uri
    · simp [h]
    · simp [h, ih]

/-- A call changes the vector by what it says about patterns. -/
theorem run_m_globs (d : ServletDispatch W) (call : DispatchCall W) :
    (call.run d).m_globs = call.glob?.toList.foldl Standing.follow d.m_globs := by
  cases call <;>
    simp [DispatchCall.run, DispatchCall.glob?, addServlet, addServletCallback, addServletCreator,
      addGlobServlet, addGlobServletCallback, addGlobServletCreator, delServlet, delGlobServlet, eraseGlob_eq,
      Standing.follow, Entry.key, Entry.made, Entry.value?]

/-- A call changes the map by what it says about exact uris. -/
theorem run_m_datas (d : ServletDispatch W) (call : DispatchCall W) :
    (call.run d).m_datas = call.exactEntry?.toList.foldl Standing.assign d.m_datas := by
  cases call <;> rfl

/-- No call changes the default. -/
theorem run_m_default (d : ServletDispatch W) (call : DispatchCall W) :
    (call.run d).m_default = d.m_default := by
  cases call <;> rfl

/-- The tables after calls, from what the calls say. -/
theorem after_tables (d : ServletDispatch W) (calls : List (DispatchCall W)) :
    (d.after calls).m_globs = (calls.filterMap DispatchCall.glob?).foldl Standing.follow d.m_globs ∧
      (d.after calls).m_datas = (calls.filterMap DispatchCall.exactEntry?).foldl Standing.assign d.m_datas ∧
      (d.after calls).m_default = d.m_default := by
  induction calls generalizing d with
  | nil => exact ⟨rfl, rfl, rfl⟩
  | cons call rest ih =>
    obtain ⟨hglobs, hdatas, hdefault⟩ := ih (call.run d)
    refine ⟨hglobs.trans ?_, hdatas.trans ?_, hdefault.trans (run_m_default d call)⟩
    · rw [run_m_globs]
      cases h : call.glob? <;> simp [h]
    · rw [run_m_datas]
      cases h : call.exactEntry? <;> simp [h]

/-- The tables of a new dispatch after calls. -/
theorem after_new (m_default : Option (Servlet W)) (calls : List (DispatchCall W)) :
    ((new.setDefault m_default).after calls).m_globs = Standing.standing (calls.filterMap DispatchCall.glob?) ∧
      (∀ uri, ((new.setDefault m_default).after calls).m_datas uri =
        Standing.registered (calls.filterMap DispatchCall.exactEntry?) uri) ∧
      ((new.setDefault m_default).after calls).m_default = m_default := by
  obtain ⟨hglobs, hdatas, hdefault⟩ := after_tables (new.setDefault m_default) calls
  refine ⟨hglobs.trans (Standing.foldl_follow _), fun uri => ?_, hdefault⟩
  rw [hdatas]
  exact Standing.foldl_assign _ uri

/-- **The tables hold the last registrations.** After any calls on a new dispatch the vector holds each pattern
at most once: the patterns whose last registration was not deleted, in the order of these and with their
creators. A uri gets the servlet last registered for exactly it, when that was not deleted (of a creator the
one that it makes of the request); otherwise that of the first matching pattern; otherwise the default. -/
theorem getMatchedServlet_after (m_default : Option (Servlet W)) (calls : List (DispatchCall W)) :
    (((new.setDefault m_default).after calls).m_globs.map Prod.fst).Nodup ∧
      ((new.setDefault m_default).after calls).m_globs =
        Standing.standing (calls.filterMap DispatchCall.glob?) ∧
      ∀ (fnmatch : Bytes → Bytes → ℤ) (uri : Bytes),
        ((new.setDefault m_default).after calls).getMatchedServlet uri fnmatch =
          match Standing.registered (calls.filterMap DispatchCall.exactGives?) uri with
          | some gives => gives
          | none =>
            match (Standing.standing (calls.filterMap DispatchCall.globGives?)).find?
                fun it => fnmatch (cStr it.1) (cStr uri) == 0 with
            | some it => it.2
            | none => pure m_default := by
  obtain ⟨hglobs, hdatas, hdefault⟩ := after_new m_default calls
  refine ⟨?_, hglobs, fun fnmatch uri => ?_⟩
  · rw [hglobs]
    exact Standing.standing_keys_nodup _
  · unfold getMatchedServlet
    rw [hdatas, hglobs, hdefault, DispatchCall.registered_exactGives?, DispatchCall.standing_globGives?,
      List.find?_map]
    cases Standing.registered (calls.filterMap DispatchCall.exactEntry?) uri with
    | some creator => rfl
    | none =>
      cases hfind : (Standing.standing (calls.filterMap DispatchCall.glob?)).find?
          fun it => fnmatch (cStr it.1) (cStr uri) == 0 with
      | some it => simp [hfind]
      | none => simp [hfind]

/-- A servlet is also found by its exact uri, or by its pattern as it was registered. -/
theorem getServlet_after (m_default : Option (Servlet W)) (calls : List (DispatchCall W)) (uri : Bytes) :
    ((new.setDefault m_default).after calls).getServlet uri =
        (Standing.registered (calls.filterMap DispatchCall.exactGives?) uri).getD (pure none) ∧
      ((new.setDefault m_default).after calls).getGlobServlet uri =
        (Standing.registered (calls.filterMap DispatchCall.globGives?) uri).getD (pure none) := by
  obtain ⟨hglobs, hdatas, _⟩ := after_new m_default calls
  constructor
  · unfold getServlet
    rw [hdatas, DispatchCall.registered_exactGives?]
    cases Standing.registered (calls.filterMap DispatchCall.exactEntry?) uri <;> rfl
  · unfold getGlobServlet
    rw [DispatchCall.registered_globGives?, hglobs, Standing.registered, Standing.lookup_eq_find?]
    cases (Standing.standing (calls.filterMap DispatchCall.glob?)).find? fun it => decide (it.1 = uri) <;> rfl

/-- A path for which nothing is registered, exactly or by a pattern, is answered by the default page. -/
theorem handle_unregistered (calls : List (DispatchCall W)) (fnmatch : Bytes → Bytes → ℤ) (serving : Serving W)
    (hexact : Standing.registered (calls.filterMap DispatchCall.exactEntry?) serving.request.path = none)
    (hglob : ∀ it ∈ Standing.standing (calls.filterMap DispatchCall.glob?),
      fnmatch (cStr it.1) (cStr serving.request.path) ≠ 0) :
    ((new.after calls).handle fnmatch).Returns serving 0
      { serving with response := notFoundResponse (asciiText "bobliew/1.0".toList) serving.response } := by
  obtain ⟨hglobs, hdatas, hdefault⟩ := after_new (new (W := W)).m_default calls
  have hnone : (Standing.standing (calls.filterMap DispatchCall.glob?)).find?
      (fun it => fnmatch (cStr it.1) (cStr serving.request.path) == 0) = none :=
    List.find?_eq_none.mpr fun it hit => by simpa using hglob it hit
  have hmatched : (new.after calls).getMatchedServlet serving.request.path fnmatch =
      pure (new (W := W)).m_default := by
    unfold getMatchedServlet
    rw [show new.after calls = (new.setDefault (new (W := W)).m_default).after calls from rfl, hdatas, hexact,
      hglobs, hdefault, hnone]
  unfold Effect.Returns handle
  rw [hmatched]
  rfl

end ServletDispatch

end Bobliew.Http
