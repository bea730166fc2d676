import CapyJs.Http.Request

/-!
# Which handler answers a request

Between the parser and the route table a request passes through arrays of 16 and 512 bytes,
and a route through C strings. A request that is longer than the arrays is looked up under
another name.
-/
namespace CapyJs.Http

/-- The strings given to `server.get` or `serveStatic`. -/
structure Route where
  method : Text
  uri : Text
  deriving DecidableEq, Repr

/-- The key under which `routes_` holds a handler. -/
def Route.key (r : Route) : Text × Text := (cString r.method, cString r.uri)

/-- A method and a path as the parser gives them: no byte of either is 0. -/
structure ParsedRequest where
  method : Text
  path : Text
  method_noNul : 0 ∉ method
  path_noNul : 0 ∉ path

/-- The context after some registrations. The handler of each one is known by its number. -/
def registerRoutes (routes : List Route) : HttpContext :=
  routes.zipIdx.foldl (fun ctx r => ctx.registerApiFunction r.1.key.1 r.1.key.2 r.2) .empty

namespace ParsedRequest

/-- The route that is registered for a request. -/
def route (q : ParsedRequest) : Route := ⟨q.method, q.path⟩

/-- The handler that `invoke_function` calls; without one, `resp_with_404` is called. -/
def invoked (q : ParsedRequest) (routes : List Route) : Option ℕ :=
  (registerRoutes routes).findRoute (RequestObject.fill q.method q.path)

/-- The handler called is that of the last registration for exactly this request, and the
answer is a 404 if there was none. -/
structure RoutedExactly (q : ParsedRequest) (routes : List Route) : Prop where
  handler : ∀ k, q.invoked routes = some k ↔
    routes[k]? = some q.route ∧ ∀ j, k < j → routes[j]? ≠ some q.route
  notFound : q.invoked routes = none ↔ q.route ∉ routes

/-- The request goes into its arrays as a whole. -/
def Fits (q : ParsedRequest) : Prop := q.method.length ≤ 15 ∧ q.path.length ≤ 511

instance (q : ParsedRequest) : Decidable q.Fits := inferInstanceAs (Decidable (_ ∧ _))

/-- What the arrays hold. -/
def cutKey (q : ParsedRequest) : Text × Text := (q.method.take 15, q.path.take 511)

end ParsedRequest

/-! ## Looking a key up -/

theorem registerRoutes_append (routes : List Route) (r : Route) :
    registerRoutes (routes ++ [r]) =
      (registerRoutes routes).registerApiFunction r.key.1 r.key.2 routes.length := by
  simp [registerRoutes, List.zipIdx_append]

theorem findRoute_append (routes : List Route) (r : Route) (req : RequestObject) :
    (registerRoutes (routes ++ [r])).findRoute req =
      if (req.verb, req.uri) = r.key then some routes.length
      else (registerRoutes routes).findRoute req := by
  rw [registerRoutes_append, HttpContext.findRoute, HttpContext.registerApiFunction,
    List.lookup_cons]
  by_cases h : (req.verb, req.uri) = r.key
  · simp [h]
  · rw [if_neg h, beq_eq_false_iff_ne.mpr h]
    rfl

/-- The table answers with the last registration under a key. -/
theorem findRoute_last {routes : List Route} {req : RequestObject} {k : ℕ}
    (h : (registerRoutes routes).findRoute req = some k) :
    (∃ r, routes[k]? = some r ∧ r.key = (req.verb, req.uri)) ∧
      ∀ j r, k < j → routes[j]? = some r → r.key ≠ (req.verb, req.uri) := by
  induction routes using List.reverseRecOn with
  | nil => cases h
  | append_singleton routes last ih =>
    rw [findRoute_append] at h
    split_ifs at h with hkey
    · obtain rfl := Option.some.inj h
      refine ⟨⟨last, List.getElem?_concat_length, hkey.symm⟩, ?_⟩
      intro j r hj hr
      have hlt := (List.getElem?_eq_some_iff.mp hr).1
      rw [List.length_append, List.length_singleton] at hlt
      omega
    · obtain ⟨⟨r, hr, hrkey⟩, hlater⟩ := ih h
      have hk := (List.getElem?_eq_some_iff.mp hr).1
      refine ⟨⟨r, by rw [List.getElem?_append_left hk, hr], hrkey⟩, ?_⟩
      intro j r' hj hr'
      rcases Nat.lt_or_ge j routes.length with hlt | hge
      · rw [List.getElem?_append_left hlt] at hr'
        exact hlater j r' hj hr'
      · rw [List.getElem?_append_right hge] at hr'
        rw [List.mem_singleton.mp (List.mem_of_getElem? hr')]
        exact Ne.symm hkey

theorem findRoute_eq_none {routes : List Route} {req : RequestObject} :
    (registerRoutes routes).findRoute req = none ↔
      ∀ r ∈ routes, r.key ≠ (req.verb, req.uri) := by
  induction routes using List.reverseRecOn with
  | nil => simp [registerRoutes, HttpContext.findRoute, HttpContext.empty]
  | append_singleton routes r ih =>
    rw [findRoute_append]
    split_ifs with hkey
    · refine iff_of_false nofun ?_
      intro hall
      exact hall r (by simp) hkey.symm
    · rw [ih]
      constructor
      · intro hall r' hr'
        rcases List.mem_append.mp hr' with hmem | hmem
        · exact hall r' hmem
        · rw [List.mem_singleton.mp hmem]
          exact Ne.symm hkey
      · intro hall r' hr'
        exact hall r' (List.mem_append_left _ hr')

namespace ParsedRequest
variable {q : ParsedRequest} {routes : List Route}

theorem key_route (q : ParsedRequest) : q.route.key = (q.method, q.path) := by
  rw [Route.key, route, cString_eq_self q.method_noNul, cString_eq_self q.path_noNul]

theorem fill_eq (q : ParsedRequest) :
    ((RequestObject.fill q.method q.path).verb, (RequestObject.fill q.method q.path).uri) =
      q.cutKey := by
  have hmethod : (0 : UInt8) ∉ q.method.take 15 := fun h => q.method_noNul (List.mem_of_mem_take h)
  have hpath : (0 : UInt8) ∉ q.path.take 511 := fun h => q.path_noNul (List.mem_of_mem_take h)
  rw [RequestObject.fill, cString_eq_self hmethod, cString_eq_self hpath, cutKey]

theorem cutKey_eq_iff (q : ParsedRequest) : q.cutKey = (q.method, q.path) ↔ q.Fits := by
  rw [cutKey, Prod.mk.injEq, List.take_eq_self_iff, List.take_eq_self_iff, Fits]

theorem invoked_last {k : ℕ} (h : q.invoked routes = some k) :
    (∃ r, routes[k]? = some r ∧ r.key = q.cutKey) ∧
      ∀ j r, k < j → routes[j]? = some r → r.key ≠ q.cutKey := by
  have hlast := findRoute_last h
  rwa [fill_eq] at hlast

theorem invoked_eq_none : q.invoked routes = none ↔ ∀ r ∈ routes, r.key ≠ q.cutKey := by
  rw [invoked, findRoute_eq_none, fill_eq]

/-! ## Exact routing -/

/-- Among the registrations that a request that fits can find, the last one is for exactly
this request: what only reads like it up to a NUL is registered again later. -/
def LastIsExact (q : ParsedRequest) (routes : List Route) : Prop :=
  ∀ (k : ℕ) (r : Route), routes[k]? = some r → r.key = q.route.key →
    r = q.route ∨ ∃ j, k < j ∧ routes[j]? = some q.route

theorem cutKey_of_fits (h : q.Fits) : q.cutKey = q.route.key :=
  ((cutKey_eq_iff q).mpr h).trans (key_route q).symm

theorem invoked_exact (hfits : q.Fits) (hlast : q.LastIsExact routes) {k : ℕ}
    (h : q.invoked routes = some k) :
    routes[k]? = some q.route ∧ ∀ j, k < j → routes[j]? ≠ some q.route := by
  obtain ⟨⟨r, hr, hkey⟩, hlater⟩ := invoked_last h
  have hnone (j : ℕ) (hj : k < j) : routes[j]? ≠ some q.route :=
    fun hroute => hlater j q.route hj hroute (cutKey_of_fits hfits).symm
  refine ⟨?_, hnone⟩
  rcases hlast k r hr (hkey.trans (cutKey_of_fits hfits)) with rfl | ⟨j, hj, hroute⟩
  · exact hr
  · exact absurd hroute (hnone j hj)

theorem routedExactly_of_fits (hfits : q.Fits) (hlast : q.LastIsExact routes) :
    q.RoutedExactly routes := by
  have hkey := cutKey_of_fits hfits
  refine ⟨fun k => ⟨invoked_exact hfits hlast, ?_⟩, ?_⟩
  · rintro ⟨hroute, hlater⟩
    cases hinvoked : q.invoked routes with
    | none =>
      exact absurd hkey.symm (invoked_eq_none.mp hinvoked q.route (List.mem_of_getElem? hroute))
    | some k' =>
      -- both are the last registration for the request
      obtain ⟨hroute', hlater'⟩ := invoked_exact hfits hlast hinvoked
      rcases Nat.lt_trichotomy k k' with hlt | rfl | hlt
      · exact absurd hroute' (hlater k' hlt)
      · rfl
      · exact absurd hroute (hlater' k hlt)
  · constructor
    · intro hnone hmem
      exact invoked_eq_none.mp hnone q.route hmem hkey.symm
    · intro hnot
      cases hinvoked : q.invoked routes with
      | none => rfl
      | some k =>
        exact absurd (List.mem_of_getElem? (invoked_exact hfits hlast hinvoked).1) hnot

theorem lastIsExact_of_routedExactly (hfits : q.Fits) (h : q.RoutedExactly routes) :
    q.LastIsExact routes := by
  intro k r hr hkey
  cases hinvoked : q.invoked routes with
  | none =>
    have hne := invoked_eq_none.mp hinvoked r (List.mem_of_getElem? hr)
    exact absurd (hkey.trans (cutKey_of_fits hfits).symm) hne
  | some k' =>
    obtain ⟨hroute, -⟩ := (h.handler k').mp hinvoked
    obtain ⟨-, hlater⟩ := invoked_last hinvoked
    rcases Nat.lt_trichotomy k k' with hlt | rfl | hlt
    · exact .inr ⟨k', hlt, hroute⟩
    · exact .inl (Option.some.inj (hr.symm.trans hroute))
    · exact absurd (hkey.trans (cutKey_of_fits hfits).symm) (hlater k r hlt hr)

/-- A request that does not fit finds no handler of its own. -/
theorem not_found_of_routedExactly (hfits : ¬q.Fits) (h : q.RoutedExactly routes) :
    q.invoked routes = none := by
  cases hinvoked : q.invoked routes with
  | none => rfl
  | some k =>
    obtain ⟨hroute, -⟩ := (h.handler k).mp hinvoked
    obtain ⟨⟨r, hr, hkey⟩, -⟩ := invoked_last hinvoked
    obtain rfl := Option.some.inj (hr.symm.trans hroute)
    exact absurd ((cutKey_eq_iff q).mp (hkey.symm.trans (key_route q))) hfits

/-- Routing is exact for a request that fits its arrays when no route that only reads like it
up to a NUL was registered last, and for a longer one when neither it nor what the arrays
hold of it is registered. -/
theorem routedExactly_iff (q : ParsedRequest) (routes : List Route) :
    q.RoutedExactly routes ↔
      q.Fits ∧ q.LastIsExact routes ∨
        ¬q.Fits ∧ q.route ∉ routes ∧ ∀ r ∈ routes, r.key ≠ q.cutKey := by
  by_cases hfits : q.Fits
  · simp only [hfits, true_and, not_true_eq_false, false_and, or_false]
    exact ⟨lastIsExact_of_routedExactly hfits, routedExactly_of_fits hfits⟩
  · simp only [hfits, not_false_eq_true, true_and, false_and, false_or]
    constructor
    · intro h
      have hnone := not_found_of_routedExactly hfits h
      exact ⟨h.notFound.mp hnone, invoked_eq_none.mp hnone⟩
    · rintro ⟨hnot, hkeys⟩
      have hnone := invoked_eq_none.mpr hkeys
      refine ⟨fun k => iff_of_false ?_ ?_, iff_of_true hnone hnot⟩
      · rw [hnone]
        nofun
      · rintro ⟨hroute, -⟩
        exact hnot (List.mem_of_getElem? hroute)

/-- `GET` with a path of 512 bytes. -/
def longRequest : ParsedRequest where
  method := ascii "GET"
  path := List.replicate 512 97
  method_noNul := by decide
  path_noNul h := absurd (List.eq_of_mem_replicate h) (by decide)

/-- A route of 511 bytes answers a request whose path has one byte more. -/
theorem longRequest_not_routedExactly :
    ¬longRequest.RoutedExactly [⟨ascii "GET", List.replicate 511 97⟩] := by
  intro h
  have hfits : ¬longRequest.Fits := by
    rintro ⟨-, hpath⟩
    rw [longRequest, List.length_replicate] at hpath
    omega
  have hnone := not_found_of_routedExactly hfits h
  have hnul : (0 : UInt8) ∉ List.replicate 511 97 :=
    fun hmem => absurd (List.eq_of_mem_replicate hmem) (by decide)
  have hkey : (⟨ascii "GET", List.replicate 511 97⟩ : Route).key = longRequest.cutKey := by
    rw [Route.key, cutKey, longRequest, cString_eq_self hnul, List.take_replicate]
    rfl
  exact invoked_eq_none.mp hnone _ (List.mem_singleton_self _) hkey

end ParsedRequest
end CapyJs.Http
