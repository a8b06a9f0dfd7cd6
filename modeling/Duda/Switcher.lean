import Duda.FirstAnswer
import Duda.Router

/-!
# Dispatch of a request over the registered services

`duda_switcher` asks the routes of one service after the other. A lookup that
redirects has answered the request by itself, but the loop only leaves on a
match and goes on after a redirection. The answers are recorded in the order
in which they are given.
-/

set_option autoImplicit false

namespace Duda.Switcher
open Duda.CString Duda.FirstAnswer Duda.Router

/-- `struct duda_service`, as far as the dispatch uses it. -/
structure Service where
  name : List UInt8
  routerList : List RouterPath
  deriving DecidableEq, Repr

inductive Answer where
  | callback (service : Service) (path : RouterPath)
  | redirect
  | error
  | nullPath
  deriving DecidableEq, Repr

/-- The URI buffer with its length and the parsed fields of the request. -/
structure Uri where
  data : ℕ → UInt8
  len : ℕ
  fields : List UriField

def lookup (uri : Uri) (service : Service) : Lookup :=
  routerPathLookup uri.data uri.len uri.fields service.routerList

/-- The branch of a match, given whether `duda_request_create` returns a
request. -/
def runPath (create : Service → RouterPath → Bool) (service : Service) :
    Option RouterPath → List Answer
  | none => [.nullPath]
  | some path => if create service path then [.callback service path] else [.error]

/-- `duda_switcher`; the response of a redirection is sent inside the lookup. -/
def switcher (create : Service → RouterPath → Bool) (uri : Uri) : List Service → List Answer
  | [] => [.error]
  | service::services =>
    let r := lookup uri service
    if r.ret = routerMatch then runPath create service r.path
    else (if r.ret = routerRedirect then [.redirect] else [])++switcher create uri services

/-- The service is the first that matches, and no earlier one has answered. -/
def FirstMatch (uri : Uri) (services : List Service) (service : Service) (path : RouterPath) :
    Prop :=
  ∃ before after, services = before++service::after ∧
    lookup uri service = ⟨routerMatch,some path⟩ ∧
    ∀ earlier ∈ before, (lookup uri earlier).ret = routerNotfound

/-- One answer: a callback, a redirection or an error. -/
structure OneAnswer (create : Service → RouterPath → Bool) (uri : Uri)
    (services : List Service) : Prop where
  single : ∃ a, switcher create uri services = [a] ∧ a ≠ .nullPath
  first : ∀ service path, .callback service path ∈ switcher create uri services →
    FirstMatch uri services service path

/-- No service redirects the request before some service matches it. -/
def NoRedirect (uri : Uri) (services : List Service) : Prop :=
  ∀ before service after, services = before++service::after →
    (∀ earlier ∈ before, (lookup uri earlier).ret ≠ routerMatch) →
    (lookup uri service).ret ≠ routerRedirect

theorem pathLookup_cases (uri : ℕ → UInt8) (uri_len : ℕ) (ruri : List UriField)
    (list : List RouterPath) :
    routerPathLookup uri uri_len ruri list = ⟨routerNotfound,none⟩ ∨
      routerPathLookup uri uri_len ruri list = ⟨routerRedirect,none⟩ ∨
      ∃ p, routerPathLookup uri uri_len ruri list = ⟨routerMatch,some p⟩ := by
  induction list with
  | nil => exact .inl rfl
  | cons p list ih =>
    simp only [routerPathLookup]
    split_ifs
    · exact .inr (.inr ⟨p,rfl⟩)
    · exact .inr (.inl rfl)
    · exact ih
    · exact .inr (.inr ⟨p,rfl⟩)
    · exact ih
    · exact ih

theorem lookup_cases (uri : Uri) (service : Service) :
    lookup uri service = ⟨routerNotfound,none⟩ ∨ lookup uri service = ⟨routerRedirect,none⟩ ∨
      ∃ p, lookup uri service = ⟨routerMatch,some p⟩ :=
  pathLookup_cases uri.data uri.len uri.fields service.routerList

section Steps

variable (create : Service → RouterPath → Bool) (uri : Uri) (service : Service)
  (services : List Service)

theorem switcher_notfound (h : lookup uri service = ⟨routerNotfound,none⟩) :
    switcher create uri (service::services) = switcher create uri services := by
  simp [switcher, h, routerNotfound, routerMatch, routerRedirect]

theorem switcher_redirect (h : lookup uri service = ⟨routerRedirect,none⟩) :
    switcher create uri (service::services) = .redirect::switcher create uri services := by
  simp [switcher, h, routerMatch, routerRedirect]

theorem switcher_match (p : RouterPath) (h : lookup uri service = ⟨routerMatch,some p⟩) :
    switcher create uri (service::services) =
      [if create service p then .callback service p else .error] := by
  simp only [switcher, h, if_true, runPath]
  split_ifs <;> rfl

theorem switcher_ne_nil : switcher create uri services ≠ [] := by
  induction services with
  | nil => simp [switcher]
  | cons service services ih =>
    rcases lookup_cases uri service with h | h | ⟨p,h⟩
    · rw [switcher_notfound create uri service services h]
      exact ih
    · simp [switcher_redirect create uri service services h]
    · simp [switcher_match create uri service services p h]

/-- A service that does not know the URI is no part of the choice. -/
theorem firstMatch_notfound (path : RouterPath) (first : Service)
    (h : lookup uri first = ⟨routerNotfound,none⟩) :
    FirstMatch uri (first::services) service path ↔ FirstMatch uri services service path := by
  constructor
  · rintro ⟨before,after,hs,hl,hb⟩
    cases before with
    | nil =>
      simp only [List.nil_append, List.cons.injEq] at hs
      rw [← hs.1, h] at hl
      cases hl
    | cons x before =>
      simp only [List.cons_append, List.cons.injEq] at hs
      exact ⟨before,after,hs.2,hl,fun earlier he => hb earlier (by simp [he])⟩
  · rintro ⟨before,after,rfl,hl,hb⟩
    refine ⟨first::before,after,rfl,hl,?_⟩
    intro earlier he
    rcases List.mem_cons.mp he with rfl | he
    · rw [h]
    · exact hb earlier he

theorem oneAnswer_notfound (h : lookup uri service = ⟨routerNotfound,none⟩) :
    OneAnswer create uri (service::services) ↔ OneAnswer create uri services := by
  have hs := switcher_notfound create uri service services h
  have hfirst := fun s path => firstMatch_notfound uri s services path service h
  constructor
  · rintro ⟨hsingle,hm⟩
    simp only [hs, hfirst] at hsingle hm
    exact ⟨hsingle,hm⟩
  · rintro ⟨hsingle,hm⟩
    constructor
    · rw [hs]
      exact hsingle
    · intro s path
      rw [hs, hfirst]
      exact hm s path

theorem noRedirect_cons : NoRedirect uri (service::services) ↔
    (lookup uri service).ret ≠ routerRedirect ∧
      ((lookup uri service).ret ≠ routerMatch → NoRedirect uri services) := by
  simp only [NoRedirect]
  rw [forall_split_cons (fun before => ∀ earlier ∈ before, (lookup uri earlier).ret ≠ routerMatch)
    (fun s => (lookup uri s).ret ≠ routerRedirect)]
  apply and_congr
  · constructor
    · intro h
      exact h (fun earlier he => by cases he)
    · intro h _
      exact h
  · simp only [List.forall_mem_cons]
    constructor
    · intro h hne before s after hs hb
      exact h before s after hs ⟨hne,hb⟩
    · rintro h before s after hs ⟨hne,hb⟩
      exact h hne before s after hs hb

end Steps

/-- A request gets one answer exactly when no service that the loop reaches
redirects it. -/
theorem switcher_answers_once_iff (create : Service → RouterPath → Bool) (uri : Uri)
    (services : List Service) :
    OneAnswer create uri services ↔ NoRedirect uri services := by
  induction services with
  | nil =>
    apply iff_of_true
    · exact ⟨⟨.error,rfl,by simp⟩,fun service path h => by simp [switcher] at h⟩
    · intro before service after h
      simp at h
  | cons service services ih =>
    rw [noRedirect_cons]
    rcases lookup_cases uri service with h | h | ⟨p,h⟩
    · rw [oneAnswer_notfound create uri service services h, ih, h]
      simp [routerNotfound, routerRedirect, routerMatch]
    · apply iff_of_false
      · rintro ⟨⟨a,ha,_⟩,_⟩
        rw [switcher_redirect create uri service services h, List.cons.injEq] at ha
        exact switcher_ne_nil create uri services ha.2
      · rintro ⟨hne,_⟩
        rw [h] at hne
        exact hne rfl
    · have hs := switcher_match create uri service services p h
      apply iff_of_true
      · constructor
        · refine ⟨_,hs,?_⟩
          split_ifs <;> simp
        · intro s path hm
          rw [hs, List.mem_singleton] at hm
          split_ifs at hm
          cases hm
          exact ⟨[],services,rfl,h,fun earlier he => by cases he⟩
      · rw [h]
        simp [routerRedirect, routerMatch]

/-- The request `/a` for a service with the route `/a/` is redirected, and
then the next service runs its route `/a`, or an error is sent as well. -/
theorem redirected_and_answered :
    switcher (fun _ _ => true) ⟨cstr [47,97],2,[⟨1,1⟩]⟩
        [⟨[115],[routerNewPath [47,97,47] 1 routerStatic]⟩,
          ⟨[116],[routerNewPath [47,97] 2 routerStatic]⟩] =
      [.redirect,.callback ⟨[116],[routerNewPath [47,97] 2 routerStatic]⟩
        (routerNewPath [47,97] 2 routerStatic)] ∧
    switcher (fun _ _ => true) ⟨cstr [47,97],2,[⟨1,1⟩]⟩
        [⟨[115],[routerNewPath [47,97,47] 1 routerStatic]⟩] = [.redirect,.error] := by
  decide

end Duda.Switcher
