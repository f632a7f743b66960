import Stencil.Proofs.Alphabet.Hidden
import Stencil.Proofs.Composition.Visits

/-!
# How composition spells

Templates are composed of what their sources say outside protected regions, of placeholders for the
regions put aside so far, and of what takes the place of variables. A placeholder that is overridden
wherever it occurs in the text of a template is left out of what the template is composed to: its
definitions shed it, and so does everything that they are put into.
-/

namespace Stencil

open ProtectedRegions

namespace Alphabet

variable {A : Alphabet} {P Q : Nat → Prop} {e : Engine} {disk : Disk} {ctx : Context} {s t : Text}

theorem spelled_only_only :
    ((A.only Q).only P).Spelled s ↔ (A.only fun n => Q n ∧ P n).Spelled s :=
  ⟨fun h => h.mono (fun _ hc => hc) fun _ ⟨⟨hn, hq⟩, hp⟩ => ⟨hn, hq, hp⟩,
    fun h => h.mono (fun _ hc => hc) fun _ ⟨hn, hq, hp⟩ => ⟨⟨hn, hq⟩, hp⟩⟩

theorem Sheds.only_mono {d : Delimiters} {names : List String} {Q' : Nat → Prop}
    (h : (A.only Q).Sheds P d names s) (hQ : ∀ n, Q n → Q' n) : (A.only Q').Sheds P d names s :=
  ⟨h.spelled.only_mono hQ, h.overridden⟩

/-- An engine without plugins whose sources, filters and context spell with an alphabet. -/
structure Fits (A : Alphabet) (e : Engine) (disk : Disk) (ctx : Context) : Prop where
  /-- There are no plugins. -/
  plugins : e.plugins = []
  /-- No placeholder has a character of the delimiters. -/
  spares : A.Spares e.delimiters
  /-- The filters keep values spelled, whichever placeholders are in use. -/
  filters : ∀ P, (A.only P).Suits e.filters
  /-- The context has no placeholders. -/
  context : (A.only fun _ => False).SpellsContext ctx
  /-- A placeholder is one of the alphabet, or spelled with glyphs. -/
  shelves : ∀ n, A.shelf n ∨ A.Bare (placeholder n)
  /-- Sources are bare outside their protected regions. -/
  sources : ∀ name source, Loader.loadFirst disk e.allLoaders name = .ok source →
    ∀ w ∈ outside e.delimiters source, A.Bare w

namespace Fits

theorem context_only (h : A.Fits e disk ctx) : (A.only P).SpellsContext ctx := fun x hx =>
  (h.context x hx).mono (fun _ hc => hc) fun _ hn => ⟨hn.1, hn.2.elim⟩

theorem drafted (h : A.Fits e disk ctx) (hs : (A.only P).Spelled s) :
    (A.only P).Spelled (e.drafted ctx s) := by
  have hd : (A.only P).Spares e.delimiters := h.spares.only
  refine Spelled.substitute hd (h.filters P) h.context_only ?_
  refine Spelled.expandLoops hd (fun hs hctx => ?_) hs h.context_only
  exact Spelled.substitute hd (h.filters P) hctx (hs.resolveConditionals hd _)

theorem process (h : A.Fits e disk ctx) (isDocument : Bool) (hs : (A.only P).Spelled s) :
    (A.only P).Spelled (e.process ctx isDocument s) := by
  rw [Engine.process_eq h.plugins]
  exact (h.drafted hs).resolveConditionals h.spares.only ctx

/-- Putting the regions of a source aside spells it with the placeholders in use. -/
theorem request (h : A.Fits e disk ctx) {name : String} {p q : Engine.Progress}
    (hrequest : e.request disk name p = (.ok t, q)) :
    p.regions.length ≤ q.regions.length ∧ (A.only (· < q.regions.length)).Spelled t := by
  obtain ⟨source, hload, rfl, hregions⟩ := Engine.request_eq_ok hrequest
  refine ⟨?_, spelled_extract (h.sources name source hload) fun n _ hn => ?_⟩
  · rw [hregions, extract_snd, List.length_append]
    exact Nat.le_add_right _ _
  · rcases h.shelves n with hshelf | hbare
    · rw [← List.append_nil (placeholder n)]
      exact .shelved ⟨hshelf, hregions ▸ hn⟩ .nil
    · exact Bare.spelled hbare

end Fits

theorem Spelled.placeBase {d : Delimiters} (hd : A.Spares d) (h : A.Spelled s) {base : Text}
    (hbase : A.Spelled base) : A.Spelled (Engine.placeBase d s base) := by
  unfold Engine.placeBase
  split
  · rename_i tag htag
    exact h.splice_base hd (List.mem_of_mem_head? htag) hbase
  · exact h.append hbase

/-- Making includes keeps a text spelled. -/
theorem Spelled.splice_includes {d : Delimiters} (hd : A.Spares d) (h : A.Spelled s)
    {edits : List Edit}
    (hspans : edits.map (fun e => (e.start, e.stop)) =
      (Tag.scan d.includeTag s).map fun t => (t.start, t.stop))
    (hnew : ∀ e ∈ edits, A.Spelled e.replacement) : A.Spelled (s.splice edits) := by
  have hord : Edit.Ordered 0 edits := by
    refine (Tag.ordered_scan d.includeTag s fun _ => []).congr ?_
    rw [hspans, List.map_map]
    rfl
  refine h.splice hord (fun e he => ?_) hnew
  have hmem := List.mem_map_of_mem (f := fun e : Edit => (e.start, e.stop)) he
  rw [hspans] at hmem
  obtain ⟨tag, htag, heq⟩ := List.mem_map.mp hmem
  obtain ⟨hstart, hstop⟩ := Prod.mk.inj heq
  have hstands := Tag.stands_of_mem_scan htag
  exact ⟨hstart ▸ seam_start hd d.encloses_includeTag h hstands,
    hstop ▸ seam_stop hd d.encloses_includeTag h hstands⟩

namespace Fits

/-- The placeholders in use after a step, without those that are overridden. -/
abbrev shown (A : Alphabet) (P : Nat → Prop) (p : Engine.Progress) : Alphabet :=
  A.only fun n => n < p.regions.length ∧ P n

/-- What a composition is told: definitions shed what is overridden by them. -/
def Told (A : Alphabet) (P : Nat → Prop) (d : Delimiters) (definitions : Blocks)
    (p : Engine.Progress) :
    Prop :=
  ∀ x ∈ definitions, (A.only (· < p.regions.length)).Sheds P d definitions.keys x.2

/-- In the texts of some visits, all placeholders but some are overridden wherever they occur. -/
def Veiled (P : Nat → Prop) (d : Delimiters) (visits : Visit → Prop) : Prop :=
  ∀ v, visits v → ∀ n q, Occurs n v.text q → P n ∨ Overridden d v.definitions.keys v.text q

/-- A composition with this much fuel leaves out what is overridden. -/
def Composes (A : Alphabet) (P : Nat → Prop) (e : Engine) (disk : Disk)
    (ctx : Context) (fuel : Nat) :
    Prop :=
  ∀ {ancestry definitions name p t p'}, Told A P e.delimiters definitions p →
    Veiled P e.delimiters (e.Visits disk ctx fuel ancestry definitions name p) →
    e.compose disk ctx fuel ancestry definitions name p = (.ok t, p') →
    p.regions.length ≤ p'.regions.length ∧ (shown A P p').Spelled t

/-- The includes of a template, made one after the other. -/
theorem includes (h : A.Fits e disk ctx) {fuel : Nat} (hfuel : Composes A P e disk ctx fuel)
    {ancestry : Ancestry} {tags : List (Tag String)} {p p' : Engine.Progress} {edits : List Edit}
    (hvisits : ∀ front t back edits q, tags = front ++ t :: back →
      Engine.runAll (e.includeTemplate disk ctx fuel ancestry) front p = (.ok edits, q) →
      Veiled P e.delimiters (e.Visits disk ctx fuel ancestry [] t.content q))
    (hrun : Engine.runAll (e.includeTemplate disk ctx fuel ancestry) tags p = (.ok edits, p')) :
    p.regions.length ≤ p'.regions.length ∧
      edits.map (fun e => (e.start, e.stop)) = tags.map (fun t => (t.start, t.stop)) ∧
      ∀ e ∈ edits, (shown A P p').Spelled e.replacement := by
  induction tags generalizing p edits with
  | nil =>
    obtain ⟨hedits, rfl⟩ := Prod.mk.inj hrun
    obtain rfl := Except.ok.inj hedits
    exact ⟨Nat.le_refl _, rfl, by simp⟩
  | cons tag tags ih =>
    obtain ⟨edit, q, edits, htag, hrest, rfl⟩ := Engine.runAll_cons_eq_ok hrun
    obtain ⟨hgood, hgoods⟩ := Engine.forall_included htag hvisits
    obtain ⟨hle, hspans, hspelled⟩ := ih hgoods hrest
    obtain ⟨included, hcompose, rfl⟩ := Engine.includeTemplate_eq_ok htag
    obtain ⟨hle', hincluded⟩ := hfuel (by intro x hx; exact absurd hx (by simp)) hgood hcompose
    refine ⟨Nat.le_trans hle' hle, by rw [List.map_cons, List.map_cons, hspans], ?_⟩
    refine List.forall_mem_cons.mpr ⟨?_, hspelled⟩
    exact (h.process false hincluded).only_mono fun n hn => ⟨Nat.lt_of_lt_of_le hn.1 hle, hn.2⟩

/-- Composition leaves out the placeholders that are overridden wherever they occur in a visit. -/
theorem compose (h : A.Fits e disk ctx) (fuel : Nat) : Composes A P e disk ctx fuel := by
  induction fuel with
  | zero =>
    intro ancestry definitions name p t p' _ _ hrun
    rw [Engine.compose_zero] at hrun
    exact absurd (Prod.mk.inj hrun).1 (by simp)
  | succ fuel ih =>
    intro ancestry definitions name p t p' hdefs hvisits hrun
    obtain ⟨-, source, q, edits, q', hrequest, hincludes, hfinish⟩ := Engine.compose_eq_ok hrun
    obtain ⟨hlequest, hsource⟩ := h.request hrequest
    obtain ⟨hle, hspans, hedits⟩ := h.includes ih (fun front t back edits r htags hrun v hv =>
      hvisits v (.included hrequest htags hrun hv)) hincludes
    -- the text of the visit
    have htext : (A.only (· < q'.regions.length)).Spelled (source.splice edits) := by
      refine Spelled.splice_includes h.spares.only
        (hsource.only_mono fun n hn => Nat.lt_of_lt_of_le hn hle) hspans fun e he => ?_
      exact (hedits e he).only_mono fun n hn => hn.1
    have hsheds : (A.only (· < q'.regions.length)).Sheds P e.delimiters definitions.keys
        (source.splice edits) := ⟨htext, hvisits _ (.here hrequest hincludes)⟩
    have hdefs' : ∀ x ∈ definitions,
        (A.only (· < q'.regions.length)).Sheds P e.delimiters definitions.keys x.2 := fun x hx =>
      (hdefs x hx).only_mono fun n hn => Nat.lt_of_lt_of_le hn (Nat.le_trans hlequest hle)
    rcases Engine.finish_eq_ok hfinish with ⟨rfl, rfl⟩ | ⟨tag, base, htag, hbase, rfl⟩
    · exact ⟨Nat.le_trans hlequest hle,
        spelled_only_only.mp (hsheds.resolve h.spares.only hdefs' [])⟩
    · have hcollected := sheds_collect h.spares.only (List.Subset.refl _) hdefs' htext
        fun n p hp => (hsheds.overridden n p hp).imp_right fun ho _ _ _ _ => ho
      obtain ⟨hle', hbase⟩ := ih (fun x hx => (hcollected x hx).mono (keys_subset_collect _ _ _))
        (fun v hv => hvisits v (.base hrequest hincludes htag hv)) hbase
      refine ⟨Nat.le_trans hlequest (Nat.le_trans hle hle'),
        Spelled.placeBase h.spares.only ?_ hbase⟩
      refine (spelled_only_only.mp (hsheds.strip h.spares.only)).only_mono fun n hn => ?_
      exact ⟨Nat.lt_of_lt_of_le hn.1 hle', hn.2⟩

/-- The draft of a render is spelled with the placeholders of the regions put aside, without those
that are overridden. -/
theorem draft (h : A.Fits e disk ctx) {name : String} {regions : ProtectedRegions}
    (hvisits : Veiled P e.delimiters (e.Visits disk ctx (e.depthBound disk) [] [] name {}))
    (hdraft : e.draft disk name ctx = .ok (t, regions)) :
    (A.only fun n => n < regions.length ∧ P n).Spelled t := by
  unfold Engine.draft at hdraft
  split at hdraft
  · rename_i composed p hrun
    obtain ⟨rfl, rfl⟩ := Prod.mk.inj (Except.ok.inj hdraft)
    exact h.drafted (h.compose _ (by intro x hx; exact absurd hx (by simp)) hvisits hrun).2
  · exact absurd hdraft (by simp)

end Fits

end Alphabet

end Stencil
