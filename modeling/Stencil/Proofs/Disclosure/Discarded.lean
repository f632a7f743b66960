import Stencil.Proofs.Disclosure.Placeholders

/-!
# Discarded regions stay hidden

What a region protects is shown where the engine has left its placeholder, and nowhere else. A
placeholder that stands in a branch that is not selected is dropped with it, and one that stands in
a block that is overridden never reaches the text of the base. So what the region protects makes no
difference to the output.

That the conditionals of a loop's body or of an included template drop a placeholder need not be
said: it does not reach the draft of the document then.
-/

namespace Stencil

open ProtectedRegions

namespace Engine

open Alphabet

variable {σ : Type} {e : Engine} {disk : Disk} {ctx : Context} {name t : String}
    {k : Nat} {s s' : Text}
  {custom : List String}

/-- The visits of a render. -/
def visited (e : Engine) (disk : Disk) (name : String) (ctx : Context) : Visit → Prop :=
  e.Visits disk ctx (e.depthBound disk) [] [] name {}

/-- Two engines take the same course: they visit the same templates, and come to the same draft. -/
structure SameCourse (e e' : Engine) (disk : Disk) (name : String) (ctx : Context) : Prop where
  /-- They visit the same templates. -/
  visits : ∀ v, e.visited disk name ctx v ↔ e'.visited disk name ctx v
  /-- They come to the same draft. -/
  draft : e.draft disk name ctx = e'.draft disk name ctx

/-- A number is overridden in a render: wherever its placeholder occurs in the text of a template,
the innermost block around it is defined by a more derived one. -/
def Overrides (e : Engine) (disk : Disk) (name : String) (ctx : Context) (n : Nat) : Prop :=
  ∀ v, e.visited disk name ctx v → ∀ p, Occurs n v.text p →
    Overridden e.delimiters v.definitions.keys v.text p

/-- A number is discarded in a render: wherever its placeholder occurs in the draft, it stands in a
conditional but in no branch of it that is selected. -/
def Discards (e : Engine) (disk : Disk) (name : String) (ctx : Context) (n : Nat) : Prop :=
  ∀ text regions, e.draft disk name ctx = .ok (text, regions) → ∀ p, Occurs n text p →
    Discarded e.delimiters ctx text p

/-- The conditionals of a draft leave out what is overridden and what is discarded. -/
theorem spelled_hidden (hfits : ordinary.Fits (e.restrict (admitsWhole custom)) disk ctx)
    (hcourse : SameCourse (e.restrict (admitsWhole custom)) e disk name ctx) {hidden : Nat → Prop}
    (hhidden : ∀ n, hidden n → e.Overrides disk name ctx n ∨ e.Discards disk name ctx n)
    {text : Text} {regions : ProtectedRegions}
    (hdraft : e.draft disk name ctx = .ok (text, regions)) :
    (ordinary.only fun n => ¬ hidden n).Spelled (resolveConditionals e.delimiters ctx text) := by
  have hveiled : Fits.Veiled (fun n => ¬ e.Overrides disk name ctx n) e.delimiters
      ((e.restrict (admitsWhole custom)).visited disk name ctx) := by
    intro v hv n p hp
    by_cases hn : e.Overrides disk name ctx n
    · exact .inr (hn v ((hcourse.visits v).mp hv) p hp)
    · exact .inl hn
  have htext := hfits.draft hveiled (hcourse.draft.trans hdraft)
  refine Spelled.discard hfits.spares (htext.mono (fun _ hc => hc) fun n hn => hn.1)
    fun n p hp => ?_
  by_cases hn : hidden n
  · rcases hhidden n hn with hover | hdisc
    · -- what is overridden does not occur in the draft
      exact absurd hover (htext.shelf_of_occurs (fun h => h.1 rfl) hp).2.2
    · exact .inr (hdisc text regions hdraft p hp)
  · exact .inl hn

/-- Two sources that differ in one region make two drafts with the same text, whose regions are the
same but at the numbers of that region. -/
theorem draft_differ (hdiffer : DifferAt e.delimiters k s s') (disk : Disk)
    (name : String) (ctx : Context) :
    (∃ err, (e.withSource t s).draft disk name ctx = .error err ∧
        (e.withSource t s').draft disk name ctx = .error err) ∨
      ∃ text regions regions', (e.withSource t s).draft disk name ctx = .ok (text, regions) ∧
        (e.withSource t s').draft disk name ctx = .ok (text, regions') ∧
        ∀ n, ¬ numbers t k ((e.withSource t s).visited disk name ctx) n →
        regions[n]? = regions'[n]? := by
  have hagrees : Agrees (numbers t k ((e.withSource t s).visited disk name ctx)) {} {}
      ((e.withSource t s).compose disk ctx ((e.withSource t s).depthBound disk) [] [] name {})
      ((e.withSource t s').compose disk ctx ((e.withSource t s).depthBound disk) [] [] name {}) :=
    alike_compose hdiffer disk ctx _ rfl
  unfold draft
  rw [← depthBound_withSource e disk t s s']
  generalize (e.withSource t s).compose disk ctx
    ((e.withSource t s).depthBound disk) [] [] name {} = x
    at hagrees ⊢
  generalize (e.withSource t s').compose disk ctx
    ((e.withSource t s).depthBound disk) [] [] name {} = y
    at hagrees ⊢
  obtain ⟨r, p⟩ := x
  obtain ⟨r', q⟩ := y
  obtain rfl : r = r' := hagrees.outcome
  cases r with
  | error stop => exact .inl ⟨reason name stop, rfl, rfl⟩
  | ok composed =>
    exact .inr ⟨_, p.regions, q.regions, rfl, rfl,
      fun n hn => hagrees.regions composed rfl n hn rfl⟩

/-- The regions of a draft are those of the sources, each at its number in a visit. -/
theorem owned_of_draft {text : Text} {regions : ProtectedRegions}
    (hdraft : e.draft disk name ctx = .ok (text, regions)) {n : Nat} {content : Text}
    (hcontent : regions[n]? = some content) : e.Owned disk (e.visited disk name ctx) n content := by
  unfold draft at hdraft
  split at hdraft
  · rename_i composed p hrun
    obtain ⟨-, rfl⟩ := Prod.mk.inj (Except.ok.inj hdraft)
    rcases putsOwned e disk ctx _ hrun n content hcontent with hnone | howned
    · exact absurd hnone (by simp)
    · exact howned
  · exact absurd hdraft (by simp)

/-- **Discarded regions stay hidden**: two sources of a template that differ in the content of one
region give the same output, if at every visit of the template the region is overridden or
discarded. Sources outside that region, keys and strings have no private characters, delimiters no
characters of placeholders, and no filter need take a placeholder apart. -/
theorem render_hides {store : CacheStore σ} {st : σ} (hplugins : e.plugins = [])
    (hcache : e.cacheEnabled = false)
    (hdelimiters : ∀ c ∈ e.delimiters.left ++ e.delimiters.right, isPlaceholderChar c = false)
    (hfilters : e.FiltersPlainly custom) (hdiffer : DifferAt e.delimiters k s s')
    (hsources : ∀ name source, Loader.loadFirst disk (e.withSource t s).allLoaders name =
      .ok source → (∀ w ∈ outside e.delimiters source, Text.Ordinary w) ∧
        ∀ i content, (inside e.delimiters source)[i]? = some content → ¬ (name = t ∧ i = k) →
          Text.Ordinary content)
    (hcontext : ∀ x ∈ Dict.merge e.defaults ctx, x.2.Ordinary)
    (hcourse : SameCourse ((e.withSource t s).restrict (admitsWhole custom))
      (e.withSource t s) disk name
      (e.effectiveContext ctx))
    (hhidden : ∀ v, (e.withSource t s).visited disk name (e.effectiveContext ctx) v → v.name = t →
      (e.withSource t s).Overrides disk name (e.effectiveContext ctx) (v.count + k) ∨
        (e.withSource t s).Discards disk name (e.effectiveContext ctx) (v.count + k)) :
    ((e.withSource t s).render disk store st name ctx).outcome =
      ((e.withSource t s').render disk store st name ctx).outcome := by
  by_cases hname : name.toList.all isBlank = true
  · rw [render_blank store st hname, render_blank store st hname]
  rw [Bool.not_eq_true] at hname
  have houtcome : ∀ s, ((e.withSource t s).render disk store st name ctx).outcome =
      ((e.withSource t s).draft disk name (e.effectiveContext ctx)).map fun x =>
        restore x.2 (resolveConditionals e.delimiters (e.effectiveContext ctx) x.1) := by
    intro s
    rw [outcome_uncached (e := e.withSource t s) hcache store st hname]
    exact renderFresh_draft (e := e.withSource t s) hplugins name (e.effectiveContext ctx)
  rw [houtcome, houtcome]
  rcases draft_differ (t := t) hdiffer disk name (e.effectiveContext ctx) with
    ⟨err, herr, herr'⟩ | ⟨text, regions, regions', hdraft, hdraft', hagree⟩
  · rw [herr, herr']
  · rw [hdraft, hdraft']
    have hfits : ordinary.Fits ((e.withSource t s).restrict (admitsWhole custom)) disk
        (e.effectiveContext ctx) :=
      fits_ordinary (e := e.withSource t s) hplugins hdelimiters hfilters
        (fun name source hload => (hsources name source hload).1) hcontext
    have hshown : (ordinary.only fun n => ¬ numbers t k ((e.withSource t s).visited disk name
        (e.effectiveContext ctx)) n).Spelled
        (resolveConditionals (e.withSource t s).delimiters (e.effectiveContext ctx) text) := by
      refine spelled_hidden hfits hcourse ?_ hdraft
      rintro n ⟨v, hv, hvt, rfl⟩
      exact hhidden v hv hvt
    refine congrArg Except.ok
      (hshown.restore_congr (fun h => h.1 rfl) (fun n hn => hagree n hn.2) ?_)
    intro n content hn hcontent
    obtain ⟨v, hv, source, hload, i, rfl, hi⟩ := owned_of_draft hdraft hcontent
    exact ((hsources v.name source hload).2 i content hi fun ⟨hvt, hik⟩ =>
      hn.2 ⟨v, hv, hvt, by rw [hik]⟩).1

/-! ## One flat template -/

/-- A flat template is all that a render of it visits. -/
theorem visits_flat (hload : Loader.loadFirst disk e.allLoaders name = .ok s)
    (hflat : isFlat e.delimiters (extract e.delimiters [] s).1 = true) {v : Visit} :
    e.visited disk name ctx v ↔ v = ⟨name, 0, [], (extract e.delimiters [] s).1⟩ := by
  simp only [isFlat, Bool.and_eq_true, List.isEmpty_iff] at hflat
  obtain ⟨⟨⟨⟨hincludes, hbase⟩, -⟩, -⟩, -⟩ := hflat
  have hrequest : e.request disk name {} =
      (.ok (extract e.delimiters [] s).1, ⟨(extract e.delimiters [] s).2, [name]⟩) := by
    rw [request_run, hload]
    rfl
  have hsplice : ∀ text : Text, text.splice [] = text := fun _ => rfl
  obtain ⟨n, hn⟩ := e.exists_depthBound disk
  unfold visited
  rw [hn]
  constructor
  · intro hv
    cases hv with
    | here hreq hrun =>
      obtain ⟨htext, rfl⟩ := Prod.mk.inj (hrequest.symm.trans hreq)
      obtain rfl := Except.ok.inj htext
      rw [hincludes] at hrun
      obtain ⟨hedits, -⟩ := Prod.mk.inj hrun
      obtain rfl := Except.ok.inj hedits
      rfl
    | included hreq htags =>
      obtain ⟨htext, -⟩ := Prod.mk.inj (hrequest.symm.trans hreq)
      obtain rfl := Except.ok.inj htext
      exact absurd (hincludes.symm.trans htags) (by simp)
    | base hreq hrun htag =>
      obtain ⟨htext, rfl⟩ := Prod.mk.inj (hrequest.symm.trans hreq)
      obtain rfl := Except.ok.inj htext
      rw [hincludes] at hrun
      obtain ⟨hedits, -⟩ := Prod.mk.inj hrun
      obtain rfl := Except.ok.inj hedits
      rw [hsplice, hbase] at htag
      exact absurd htag (by simp)
  · rintro rfl
    have hrun : runAll (e.includeTemplate disk ctx (n + 1) ([] ++ [name]))
        (Tag.scan e.delimiters.includeTag (extract e.delimiters [] s).1)
        ⟨(extract e.delimiters [] s).2, [name]⟩ =
        (.ok [], ⟨(extract e.delimiters [] s).2, [name]⟩) := by
      rw [hincludes]
      rfl
    have hvisit : e.Visits disk ctx (n + 2) [] [] name {} ⟨name, 0, [], _⟩ := .here hrequest hrun
    exact hvisit

/-- The draft of a flat template is its text after its variables. -/
theorem draft_flat (hload : Loader.loadFirst disk e.allLoaders name = .ok s)
    (hflat : isFlat e.delimiters (extract e.delimiters [] s).1 = true) (ctx : Context) :
    e.draft disk name ctx = .ok (e.substitution.apply (extract e.delimiters [] s).1 ctx,
      (extract e.delimiters [] s).2) := by
  simp only [isFlat, Bool.and_eq_true, List.isEmpty_iff] at hflat
  obtain ⟨⟨⟨⟨hincludes, hbase⟩, hblocks⟩, hbound⟩, hlegacy⟩ := hflat
  obtain ⟨n, hn⟩ := e.exists_depthBound disk
  have hname : name ∉ ([] : Ancestry) := by simp
  have hextract : extract e.delimiters [] s =
    ((extract e.delimiters [] s).1, (extract e.delimiters [] s).2) := rfl
  have hcompose :=
    compose_single hname hload (p := {}) hextract hincludes hbase hblocks ctx (n + 1) []
  rw [← hn] at hcompose
  unfold draft
  rw [hcompose]
  refine congrArg (fun s => Except.ok (e.substitution.apply s ctx, _)) ?_
  exact expandLoops_unclosed hbound hlegacy _ ctx

/-- A template with a region in the branch that is not selected, beside a filter that takes texts
apart. -/
def unselected (content : String) : Text :=
  ("\x7bif x\x7da\x7belse\x7d\x7bnoparse\x7d" ++ content ++
    "\x7b/noparse\x7d\x7bendif\x7d\x7bx|upper\x7d").toList

theorem render_hides_unselected :
    (((single []).withSource "t" (unselected "a")).render ⟨[], [], none⟩ .memory [] "t"
        [("x", .str "p")]).outcome =
      (((single []).withSource "t" (unselected "\x7bx\x7d")).render ⟨[], [], none⟩ .memory [] "t"
        [("x", .str "p")]).outcome := by
  let e : Engine := (single []).withSource "t" (unselected "a")
  let ctx : Context := [("x", .str "p")]
  have hload : Loader.loadFirst ⟨[], [], none⟩ e.allLoaders "t" = .ok (unselected "a") := rfl
  have hflat : isFlat e.delimiters (extract e.delimiters [] (unselected "a")).1 = true := by
    decide +kernel
  have hdiffer : DifferAt e.delimiters 0 (unselected "a") (unselected "\x7bx\x7d") :=
    .of_singleton (by decide +kernel) (by decide +kernel : _ = ["a".toList])
      (by decide +kernel : _ = ["\x7bx\x7d".toList])
  refine render_hides (e := single []) rfl rfl (by decide)
    (fun x hx => .inl hx : FiltersPlainly _ [])
    hdiffer ?_ ?_ ?_ ?_
  · intro name source hsource
    obtain rfl : source = unselected "a" := loadFirst_single hsource
    have hordinary : ∀ w ∈ outside e.delimiters (unselected "a") ++
        inside e.delimiters (unselected "a"), opener ∉ w ∧ closer ∉ w := by decide +kernel
    exact ⟨fun w hw => hordinary w (List.mem_append_left _ hw), fun i content hi _ =>
      hordinary content (List.mem_append_right _ (List.mem_of_getElem? hi))⟩
  · exact List.forall_mem_singleton.mpr (.str ⟨by decide, by decide⟩)
  · refine ⟨fun v => ?_, ?_⟩
    · exact (visits_flat (e := e.restrict (admitsWhole [])) hload hflat).trans
        (visits_flat hload hflat).symm
    · exact (draft_flat (e := e.restrict (admitsWhole [])) hload hflat ctx).trans
        ((congrArg Except.ok (by decide +kernel)).trans (draft_flat hload hflat ctx).symm)
  · intro v hv _
    obtain rfl := (visits_flat hload hflat).mp hv
    refine .inr fun text regions hdraft p hp => ?_
    obtain ⟨htext, -⟩ :=
      Prod.mk.inj (Except.ok.inj ((draft_flat hload hflat ctx).symm.trans hdraft))
    obtain ⟨hlength, honce, hdropped⟩ : text.length < 40 ∧
        (∀ q < 40, placeholder 0 <+: text.drop q → q = 13) ∧
        (Choice.ofTags (Tag.scan e.delimiters.conditionalTag text)).any (fun choice =>
          choice.start ≤ 13 && 13 < choice.stop &&
            (Branch.select? ctx choice.branches).all fun b => !(b.tag.stop ≤ 13 && 13 < b.stop)) =
              true := by
      rw [← htext]
      decide +kernel
    -- the placeholder stands in the default, and the first branch is selected
    obtain rfl := honce p (Nat.lt_trans hp.lt_length hlength) hp
    obtain ⟨choice, hchoice, h⟩ := List.any_eq_true.mp hdropped
    simp only [Bool.and_eq_true, decide_eq_true_eq] at h
    obtain ⟨⟨hstart, hstop⟩, hnone⟩ := h
    refine .dropped hchoice hstart hstop fun b hb ⟨hfront, hback⟩ => ?_
    rw [show Branch.select? ctx choice.branches = some b from hb] at hnone
    simp [hfront, hback] at hnone

/-- A string that spells the placeholder of a region that is dropped shows what the region
protects. -/
theorem render_shows_forged :
    let source (content : String) : Text :=
      ("\x7bif false\x7d\x7bnoparse\x7d" ++ content ++
        "\x7b/noparse\x7d\x7bendif\x7d\x7bx\x7d").toList
    let ctx : Context := [("x", .str (String.ofList (placeholder 0)))]
    DifferAt (single []).delimiters 0 (source "a") (source "b") ∧
      ((single (source "a")).render ⟨[], [], none⟩ .memory [] "t" ctx).outcome = .ok "a".toList ∧
      ((single (source "b")).render ⟨[], [], none⟩ .memory [] "t" ctx).outcome =
      .ok "b".toList := by
  intro source ctx
  have hrender : ∀ content ∈ ["a", "b"],
      ((single (source content)).render ⟨[], [], none⟩ .memory [] "t"
      ctx).outcome = .ok content.toList := by
    intro content hcontent
    rw [outcome_uncached rfl _ _ (by decide)]
    refine renderFresh_flat rfl rfl ?_ ?_
    · revert content
      decide +kernel
    · revert content
      decide +kernel
  have hdiffer : DifferAt (single []).delimiters 0 (source "a") (source "b") :=
    .of_singleton (by decide +kernel) (by decide +kernel : _ = ["a".toList])
      (by decide +kernel : _ = ["b".toList])
  exact ⟨hdiffer, hrender "a" (by simp), hrender "b" (by simp)⟩

end Engine

end Stencil
