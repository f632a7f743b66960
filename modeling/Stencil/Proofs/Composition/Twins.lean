import Stencil.Proofs.Alphabet.Passes
import Stencil.Proofs.Composition.Visits
import Stencil.Proofs.Dict

/-!
# Which regions a composition puts aside

Every region that is put aside belongs to a visit, whose template has it in its source. So a source
that says something else in one region makes no difference to a composition but for that region: the
two compositions give the same text, and put the same regions aside but at the numbers that the
region has in the visits of its template.
-/

namespace Stencil

open ProtectedRegions

namespace ProtectedRegions

/-- Two sources that differ in the content of one region: they are the same outside their regions,
and their other regions are the same. -/
structure DifferAt (d : Delimiters) (k : Nat) (s s' : Text) : Prop where
  /-- They are the same outside their regions. -/
  text : outside d s = outside d s'
  /-- They have as many regions. -/
  length : (inside d s).length = (inside d s').length
  /-- The other regions are the same. -/
  others : ∀ i, i ≠ k → (inside d s)[i]? = (inside d s')[i]?

/-- Two sources with one region each. -/
theorem DifferAt.of_singleton {d : Delimiters} {s s' content content' : Text}
    (houtside : outside d s = outside d s') (h : inside d s = [content])
    (h' : inside d s' = [content']) : DifferAt d 0 s s' := by
  refine ⟨houtside, by rw [h, h']; rfl, fun i hi => ?_⟩
  obtain ⟨j, rfl⟩ := Nat.exists_eq_succ_of_ne_zero hi
  rw [h, h']
  rfl

/-- When their regions are put aside, they are the same text. Only the number of the regions put
aside before counts. -/
theorem DifferAt.extract_fst {d : Delimiters} {k : Nat} {s s' : Text} (h : DifferAt d k s s')
    {regions regions' : ProtectedRegions} (hlength : regions.length = regions'.length) :
    (extract d regions s).1 = (extract d regions' s').1 := by
  rw [ProtectedRegions.extract_fst, ProtectedRegions.extract_fst, h.text, h.length, hlength]

/-- Putting regions aside keeps what is put aside the same where it was, if the new regions are. -/
theorem extract_agree {d : Delimiters} {s s' : Text} {regions regions' : ProtectedRegions}
    (hlength : regions.length = regions'.length) {n : Nat}
    (hinside : ∀ i, n = regions.length + i → (inside d s)[i]? = (inside d s')[i]?)
    (hagree : regions[n]? = regions'[n]?) :
    (extract d regions s).2[n]? = (extract d regions' s').2[n]? := by
  rw [extract_snd, extract_snd]
  by_cases hlt : n < regions.length
  · rwa [List.getElem?_append_left hlt, List.getElem?_append_left (hlength ▸ hlt)]
  · rw [List.getElem?_append_right (by omega), List.getElem?_append_right (by omega), ← hlength]
    exact hinside _ (by omega)

theorem DifferAt.refl (d : Delimiters) (k : Nat) (s : Text) : DifferAt d k s s :=
  ⟨rfl, rfl, fun _ _ => rfl⟩

end ProtectedRegions

namespace Engine

variable {α β : Type} {e : Engine} {disk : Disk} {ctx : Context} {fuel : Nat} {ancestry : Ancestry}
  {definitions : Blocks} {name : String} {p p' : Progress}

/-! ## Regions belong to visits -/

/-- A region with a number is in the source of a template that is visited. -/
def Owned (e : Engine) (disk : Disk) (visits : Visit → Prop) (n : Nat) (content : Text) : Prop :=
  ∃ v, visits v ∧ ∃ source, Loader.loadFirst disk e.allLoaders v.name = .ok source ∧
    ∃ i, n = v.count + i ∧ (inside e.delimiters source)[i]? = some content

theorem Owned.mono {visits visits' : Visit → Prop} {n : Nat} {content : Text}
    (h : e.Owned disk visits n content) (hsub : ∀ v, visits v → visits' v) :
    e.Owned disk visits' n content := by
  obtain ⟨v, hv, hsource⟩ := h
  exact ⟨v, hsub v hv, hsource⟩

/-- The regions that a composition with this much fuel puts aside are owned. -/
def PutsOwned (e : Engine) (disk : Disk) (ctx : Context) (fuel : Nat) : Prop :=
  ∀ {ancestry definitions name p t p'},
    e.compose disk ctx fuel ancestry definitions name p = (.ok t, p') → ∀ n content,
      p'.regions[n]? = some content → p.regions[n]? = some content ∨
        e.Owned disk (e.Visits disk ctx fuel ancestry definitions name p) n content

theorem owned_includes (hfuel : PutsOwned e disk ctx fuel) {visits : Visit → Prop}
    {tags : List (Tag String)} {edits : List Edit}
    (hvisits : ∀ front t back edits q, tags = front ++ t :: back →
      runAll (e.includeTemplate disk ctx fuel ancestry) front p = (.ok edits, q) →
      ∀ v, e.Visits disk ctx fuel ancestry [] t.content q v → visits v)
    (hrun : runAll (e.includeTemplate disk ctx fuel ancestry) tags p = (.ok edits, p')) {n : Nat}
    {content : Text} (hcontent : p'.regions[n]? = some content) :
    p.regions[n]? = some content ∨ e.Owned disk visits n content := by
  induction tags generalizing p edits with
  | nil =>
    obtain ⟨-, rfl⟩ := Prod.mk.inj hrun
    exact .inl hcontent
  | cons tag tags ih =>
    obtain ⟨edit, q, edits, htag, hrest, rfl⟩ := runAll_cons_eq_ok hrun
    obtain ⟨hgood, hgoods⟩ := forall_included htag hvisits
    rcases ih hgoods hrest with hq | howned
    · obtain ⟨included, hcompose, -⟩ := includeTemplate_eq_ok htag
      exact (hfuel hcompose n content hq).imp_right fun howned => howned.mono hgood
    · exact .inr howned

theorem putsOwned (e : Engine) (disk : Disk) (ctx : Context) (fuel : Nat) :
    PutsOwned e disk ctx fuel := by
  induction fuel with
  | zero =>
    intro ancestry definitions name p t p' hrun
    rw [compose_zero] at hrun
    exact absurd (Prod.mk.inj hrun).1 (by simp)
  | succ fuel ih =>
    intro ancestry definitions name p t p' hrun n content hcontent
    obtain ⟨-, text, q, edits, q', hrequest, hincludes, hfinish⟩ := compose_eq_ok hrun
    -- in front of the base there are regions from before, of the template, and of its includes
    have hbefore : q'.regions[n]? = some content → p.regions[n]? = some content ∨
        e.Owned disk (e.Visits disk ctx (fuel + 1) ancestry definitions name p) n content := by
      intro hq'
      have hbelow : ∀ front t back edits r,
          Tag.scan e.delimiters.includeTag text = front ++ t :: back →
          runAll (e.includeTemplate disk ctx fuel (ancestry ++ [name])) front q = (.ok edits, r) →
          ∀ v, e.Visits disk ctx fuel (ancestry ++ [name]) [] t.content r v →
            e.Visits disk ctx (fuel + 1) ancestry definitions name p v :=
        fun front t back edits r htags hrun v hv => .included hrequest htags hrun hv
      rcases owned_includes ih hbelow hincludes hq' with hq | howned
      · obtain ⟨source, hload, rfl, hregions⟩ := request_eq_ok hrequest
        rw [hregions, extract_snd] at hq
        by_cases hlt : n < p.regions.length
        · exact .inl (by rwa [List.getElem?_append_left hlt] at hq)
        · rw [List.getElem?_append_right (by omega)] at hq
          have hn : n = p.regions.length + (n - p.regions.length) := by omega
          exact .inr ⟨_, .here hrequest hincludes, source, hload, n - p.regions.length, hn, hq⟩
      · exact .inr howned
    rcases finish_eq_ok hfinish with ⟨-, rfl⟩ | ⟨tag, base, htag, hbase, -⟩
    · exact hbefore hcontent
    · rcases ih hbase n content hcontent with hq' | howned
      · exact hbefore hq'
      · exact .inr (howned.mono fun v hv => .base hrequest hincludes htag hv)

/-! ## Two sources of one template -/

/-- An engine with another source for a template. -/
def withSource (e : Engine) (t : String) (s : Text) :
    Engine := { e with sources := e.sources.set t s }

theorem delimiters_withSource (e : Engine) (t : String) (s : Text) :
    (e.withSource t s).delimiters = e.delimiters := rfl

theorem loadFirst_withSource (e : Engine) (disk : Disk) (t : String) (s : Text) (name : String) :
    Loader.loadFirst disk (e.withSource t s).allLoaders name =
      if t = name then .ok s else Loader.loadFirst disk e.allLoaders name := by
  simp only [allLoaders, withSource, Loader.loadFirst, Loader.load, Dict.get?_set]
  by_cases hname : t = name
  · rw [if_pos hname, if_pos hname]
  · rw [if_neg hname, if_neg hname]

theorem depthBound_withSource (e : Engine) (disk : Disk) (t : String) (s s' : Text) :
    (e.withSource t s).depthBound disk = (e.withSource t s').depthBound disk := by
  have hlength : ∀ s, (e.sources.set t s).length = (if t ∈ e.sources.keys then e.sources.keys
      else e.sources.keys ++ [t]).length := by
    intro s
    rw [← Dict.keys_set e.sources t s, Dict.keys, List.length_map]
  unfold depthBound allLoaders withSource
  simp only [List.foldl_cons, Loader.capacity, hlength]

/-- Two steps that come to the same, and whose regions stay the same but at some numbers. -/
structure Agrees (M : Nat → Prop) (p q : Progress) (x y : Composed α) : Prop where
  /-- They come to the same. -/
  outcome : x.1 = y.1
  /-- They have put as many regions aside. -/
  length : x.2.regions.length = y.2.regions.length
  /-- If they succeed, they agree where they did before. -/
  regions : ∀ a, x.1 = .ok a → ∀ n, ¬ M n → p.regions[n]? = q.regions[n]? →
    x.2.regions[n]? = y.2.regions[n]?

variable {M : Nat → Prop} {q : Progress} {x y : Composed α}
  {next next' : α → Progress → Composed β}

theorem Agrees.mono {M' : Nat → Prop} (h : Agrees M p q x y) (hM : ∀ n, M n → M' n) :
    Agrees M' p q x y :=
  ⟨h.outcome, h.length, fun a ha n hn => h.regions a ha n fun hm => hn (hM n hm)⟩

theorem Agrees.andThen (h : Agrees M p q x y)
    (hnext : ∀ a r r', x = (.ok a, r) → r.regions.length = r'.regions.length →
      Agrees M r r' (next a r) (next' a r')) :
    Agrees M p q (andThen x next) (andThen y next') := by
  obtain ⟨rx, r⟩ := x
  obtain ⟨ry, r'⟩ := y
  obtain rfl : rx = ry := h.outcome
  cases rx with
  | error err =>
    rw [andThen_error, andThen_error]
    exact ⟨rfl, h.length, fun a ha => absurd ha (by simp)⟩
  | ok a =>
    have hstep := hnext a r r' rfl h.length
    exact ⟨hstep.outcome, hstep.length, fun b hb n hn hagree =>
      hstep.regions b hb n hn (h.regions a rfl n hn hagree)⟩

/-- The numbers of a region of a template in its visits. -/
def numbers (t : String) (k : Nat) (visits : Visit → Prop) (n : Nat) : Prop :=
  ∃ v, visits v ∧ v.name = t ∧ n = v.count + k

section

variable {t : String} {k : Nat} {s s' : Text} (hs : DifferAt e.delimiters k s s')
include hs

theorem agrees_request (disk : Disk) (name : String)
    (hlength : p.regions.length = q.regions.length) :
    Agrees (fun n => name = t ∧ n = p.regions.length + k) p q
      ((e.withSource t s).request disk name p) ((e.withSource t s').request disk name q) := by
  rw [request_run, request_run, loadFirst_withSource, loadFirst_withSource]
  -- a template with another name has the same source
  have hsame : ∀ {u u' : Text}, DifferAt e.delimiters k u u' → (name ≠ t → u = u') →
      Agrees (fun n => name = t ∧ n = p.regions.length + k) p q
        ((.ok (extract e.delimiters p.regions u).1,
          ⟨(extract e.delimiters p.regions u).2, p.requests ++ [name]⟩) : Composed Text)
        (.ok (extract e.delimiters q.regions u').1,
          ⟨(extract e.delimiters q.regions u').2, q.requests ++ [name]⟩) := by
    intro u u' hu hname
    refine ⟨congrArg Except.ok ?_, ?_, fun a _ n hn hagree => ?_⟩
    · exact hu.extract_fst hlength
    · rw [extract_snd, extract_snd, List.length_append, List.length_append, hlength, hu.length]
    · by_cases ht : name = t
      · refine extract_agree hlength (fun i hi => hu.others i fun hik => hn ⟨ht, ?_⟩) hagree
        rw [hi, hik]
      · obtain rfl := hname ht
        exact extract_agree hlength (fun _ _ => rfl) hagree
  by_cases hname : t = name
  · rw [if_pos hname, if_pos hname]
    exact hsame hs fun h => absurd hname.symm h
  · rw [if_neg hname, if_neg hname]
    cases Loader.loadFirst disk e.allLoaders name with
    | error err => exact ⟨rfl, hlength, fun a ha => absurd ha (by simp)⟩
    | ok u => exact hsame (.refl _ _ u) fun _ => rfl

/-- Two sources of a template make two compositions with this much fuel that agree. -/
def ComposesAlike (e : Engine) (t : String) (k : Nat) (s s' : Text) (disk : Disk) (ctx : Context)
    (fuel : Nat) : Prop :=
  ∀ {ancestry definitions name} {p q : Progress}, p.regions.length = q.regions.length →
    Agrees (numbers t k ((e.withSource t s).Visits disk ctx fuel ancestry definitions name p)) p q
      ((e.withSource t s).compose disk ctx fuel ancestry definitions name p)
      ((e.withSource t s').compose disk ctx fuel ancestry definitions name q)

omit hs in
theorem agrees_include (hfuel : ComposesAlike e t k s s' disk ctx fuel) (tag : Tag String)
    (hlength : p.regions.length = q.regions.length) :
    Agrees (numbers t k ((e.withSource t s).Visits disk ctx fuel ancestry [] tag.content p)) p q
      ((e.withSource t s).includeTemplate disk ctx fuel ancestry tag p)
      ((e.withSource t s').includeTemplate disk ctx fuel ancestry tag q) := by
  unfold includeTemplate
  rw [bind_run, bind_run]
  exact (hfuel hlength).andThen fun a r r' _ hr => ⟨rfl, hr, fun _ _ _ _ hagree => hagree⟩

omit hs in
theorem agrees_includes (hfuel : ComposesAlike e t k s s' disk ctx fuel) {tags : List (Tag String)}
    (hlength : p.regions.length = q.regions.length)
    (hvisits : ∀ front u back edits r, tags = front ++ u :: back →
      runAll ((e.withSource t s).includeTemplate disk ctx fuel ancestry) front p = (.ok edits, r) →
      ∀ n, numbers t k ((e.withSource t s).Visits disk ctx fuel ancestry [] u.content r) n → M n) :
    Agrees M p q (runAll ((e.withSource t s).includeTemplate disk ctx fuel ancestry) tags p)
      (runAll ((e.withSource t s').includeTemplate disk ctx fuel ancestry) tags q) := by
  induction tags generalizing p q with
  | nil => exact ⟨rfl, hlength, fun _ _ _ _ hagree => hagree⟩
  | cons tag tags ih =>
    have hfirst : Agrees M p q ((e.withSource t s).includeTemplate disk ctx fuel ancestry tag p)
        ((e.withSource t s').includeTemplate disk ctx fuel ancestry tag q) :=
      (agrees_include hfuel tag hlength).mono (hvisits [] tag tags [] p rfl rfl)
    refine hfirst.andThen fun edit r r' htag hr => ?_
    obtain ⟨-, hgoods⟩ := forall_included htag hvisits
    exact (ih hr hgoods).andThen fun edits r r' _ hr => ⟨rfl, hr, fun _ _ _ _ hagree => hagree⟩

omit hs in
theorem agrees_finish (hfuel : ComposesAlike e t k s s' disk ctx fuel) (text : Text)
    (hlength : p.regions.length = q.regions.length)
    (hvisits : ∀ tag, (Tag.scan e.delimiters.baseTag text).head? = some tag →
      ∀ n, numbers t k ((e.withSource t s).Visits disk ctx fuel ancestry
        (Blocks.collect e.delimiters text definitions) tag.content p) n → M n) :
    Agrees M p q ((e.withSource t s).finish disk ctx fuel ancestry definitions text p)
      ((e.withSource t s').finish disk ctx fuel ancestry definitions text q) := by
  unfold finish
  rw [delimiters_withSource, delimiters_withSource]
  split
  · exact ⟨rfl, hlength, fun _ _ _ _ hagree => hagree⟩
  · rename_i tag htag
    refine ((hfuel hlength).mono (hvisits tag htag)).andThen fun base r r' _ hr => ?_
    dsimp only
    split
    · exact ⟨rfl, hr, fun _ _ _ _ hagree => hagree⟩
    · exact ⟨rfl, hr, fun _ _ _ _ hagree => hagree⟩

/-- Two sources that differ in one region make the same composition, but for that region. -/
theorem alike_compose (disk : Disk) (ctx : Context) (fuel : Nat) :
    ComposesAlike e t k s s' disk ctx fuel := by
  induction fuel with
  | zero =>
    intro ancestry definitions name p q hlength
    rw [compose_zero, compose_zero]
    exact ⟨rfl, hlength, fun a ha => absurd ha (by simp)⟩
  | succ fuel ih =>
    intro ancestry definitions name p q hlength
    rw [compose_succ, compose_succ, delimiters_withSource, delimiters_withSource]
    by_cases hname : name ∈ ancestry
    · rw [if_pos hname, if_pos hname]
      exact ⟨rfl, hlength, fun a ha => absurd ha (by simp)⟩
    rw [if_neg hname, if_neg hname]
    have hrequest := agrees_request (t := t) hs disk name hlength
    rcases hx : (e.withSource t s).request disk name p with ⟨rx, p₁⟩
    rcases hy : (e.withSource t s').request disk name q with ⟨ry, q₁⟩
    rw [hx, hy] at hrequest
    obtain rfl : rx = ry := hrequest.outcome
    -- `Agrees.andThen` does not apply: the template is known to be visited only after its includes
    cases rx with
    | error err =>
      rw [andThen_error, andThen_error]
      exact ⟨rfl, hrequest.length, fun a ha => absurd ha (by simp)⟩
    | ok text =>
      rw [andThen_ok, andThen_ok]
      have hincludes := agrees_includes ih hrequest.length
        fun front u back edits r htags hrun n ⟨v, hv, hn⟩ =>
          (⟨v, .included hx htags hrun hv, hn⟩ : numbers t k
            ((e.withSource t s).Visits disk ctx (fuel + 1) ancestry definitions name p) n)
      have hrest := hincludes.andThen fun edits r r' hrun hr =>
        agrees_finish ih (text.splice edits) hr fun tag htag n ⟨v, hv, hn⟩ =>
          ⟨v, .base hx hrun htag hv, hn⟩
      refine ⟨hrest.outcome, hrest.length, fun b hb n hn hagree => hrest.regions b hb n hn ?_⟩
      -- the includes have been made, so the template itself is visited
      refine hrequest.regions text rfl n (fun ⟨ht, heq⟩ => hn ?_) hagree
      obtain ⟨edits, r, hrun, -⟩ := andThen_eq_ok (Prod.ext hb rfl)
      exact ⟨_, .here hx hrun, ht, heq⟩

end

end Engine

end Stencil
