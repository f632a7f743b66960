import Stencil.Proofs.Opacity.Secret
import Stencil.Proofs.Tag.Unclosed

/-!
# Values are not read as templates

Two renders that differ in the text of one key, which the sources use in plain variable tags only,
give texts that differ where the key stands and nowhere else; and one fails exactly when the other
does, with the same error.

The values themselves must start no tag and open no placeholder. What is substituted is not marked
as such, and later passes read it: loops are expanded before variables are, conditionals behind
them, and a base is looked for in what partials have become.
-/

namespace Stencil

open Recognizer ProtectedRegions

/-! ## From pieces to holes -/

/-- The atoms of an outline. -/
def atoms (d : Delimiters) (ps : List (Piece (List (Atom (Option Char))))) :
    List (Atom (Option Char)) :=
  ps.flatMap fun
    | .plain p => p
    | .tag body => glyphs (d.enclose body)

theorem atoms_cons (d : Delimiters) (q : Piece (List (Atom (Option Char))))
    (ps : List (Piece (List (Atom (Option Char))))) :
    atoms d (q :: ps) = atoms d [q] ++ atoms d ps := by
  simp [atoms]

theorem write_atoms (d : Delimiters) (v : Text) (ps : List (Piece (List (Atom (Option Char))))) :
    Outline.write d (shown (Text.holed v) placeholder) ps =
      shown (Text.holed v) placeholder (atoms d ps) := by
  induction ps with
  | nil => rfl
  | cons q ps ih =>
    rw [Outline.write_cons, ih, atoms_cons, shown_append]
    congr 1
    cases q with
    | plain p => simp [atoms, Piece.text]
    | tag body => simp [atoms, Piece.text, shown_glyphs]

/-- The text of atoms, with regions in the place of their placeholders. -/
def restored (regions : ProtectedRegions) (as : List (Atom (Option Char))) : List (Option Char) :=
  as.flatMap fun
    | .glyph bit => [bit]
    | .shelved index => ((regions[index]?).getD (placeholder index)).map some

theorem fill_restored (regions : ProtectedRegions) (v : Text) (as : List (Atom (Option Char))) :
    Text.fill v (restored regions as) =
      shown (Text.holed v) (fun index => (regions[index]?).getD (placeholder index)) as := by
  induction as with
  | nil => rfl
  | cons a as ih =>
    rw [restored, List.flatMap_cons, Text.fill_append, ← restored, ih]
    cases a with
    | glyph bit => simp [Text.fill]
    | shelved index => simp

namespace Engine

variable {e : Engine} {disk : Disk} {key : String}

/-- The sources of an engine open no placeholders. -/
def Unreserved (e : Engine) (disk : Disk) : Prop :=
  ∀ name s, Loader.loadFirst disk e.allLoaders name = .ok s → opener ∉ s

/-- Sources are stored as glyphs, placeholders as numbers. -/
def opaqueLibrary (hd : e.delimiters.Apart) (hsound : e.Sound disk) (hclear : e.Unreserved disk) :
    (opaqueWeave disk hd).Library e disk (opener ∉ ·) where
  plain := glyphs
  shelved index := [.shelved index]
  write_plain i s := shown_glyphs _ _ s
  write_shelved i n := by simp [opaqueWeave]
  source := by
    intro name s hload
    obtain ⟨fs, rfl, hfs⟩ := hsound name s hload
    have hforeign : ∀ f ∈ fs, opener ∉ Fragment.text e.delimiters f := fun f hf hmem =>
      hclear name _ hload (Fragment.mem_source hf hmem)
    refine ⟨fs, rfl, hfs, Fragment.forall_mem_shelve ?_ ?_ ?_, ?_⟩
    · intro s hs c hc
      have hmem := some_mem_glyphs hc
      exact ⟨fun h => hfs.plain hs (h ▸ hmem), fun h => hforeign _ hs (h ▸ hmem)⟩
    · intro n c hc
      exact absurd hc (by simp)
    · intro body hbody
      refine ⟨hfs.free hbody, fun hmem => hforeign _ hbody ?_, name, fs, hload, hfs, hbody⟩
      simp [Fragment.text, Piece.text, Delimiters.enclose, hmem]
    · intro content hcontent hmem
      obtain ⟨front, back, hregion⟩ := Fragment.mem_contents hcontent
      exact hforeign _ hregion (by simp [Fragment.text, hmem])

/-- What members of a family of contexts render: all fail with one error, or all give one text with
holes, each with its own value in them. -/
theorem renderFresh_secret (hd : e.delimiters.Apart) (hplugins : e.plugins = [])
    (hsound : e.Sound disk) (hclear : e.Unreserved disk)
    {scope : (e.delimiters.Filling → Context) → Prop}
    (hscopes : (opaqueWeave disk hd).Scopes e scope) {c : e.delimiters.Filling → Context}
    (hc : scope c) (name : String) :
    (∃ err, ∀ i, (e.renderFresh disk name (c i)).1 = .error err) ∨
      ∃ bits, ∀ i, (e.renderFresh disk name (c i)).1 = .ok (Text.fill i.1 bits) := by
  obtain ⟨p, hkept, ⟨stop, hrun⟩ | ⟨t, ht, hrun⟩⟩ :=
    Weave.lockstep_compose hd hplugins hscopes hc (opaqueLibrary hd hsound hclear)
      (e.depthBound disk) [] Weave.definitions_nil name (p := {}) (by simp)
  · exact .inl ⟨reason name stop, fun i => by rw [renderFresh_error (hrun i)]⟩
  · obtain ⟨ps, hps, hwrite⟩ := ht.process hd hplugins hscopes hc true
    refine .inr ⟨restored p.regions (atoms e.delimiters ps), fun i => ?_⟩
    have hopener : ∀ bit, .glyph bit ∈ atoms e.delimiters ps → opener ∉ Text.holed i.1 bit := by
      intro bit hbit
      cases bit with
      | none => exact i.2.opener
      | some c =>
        obtain ⟨q, hq, hmem⟩ := List.mem_flatMap.mp hbit
        have hne : c ≠ opener := by
          rintro rfl
          cases q with
          | plain as => exact (hps _ hq _ hmem).2 rfl
          | tag body =>
            have hbody := (hps _ hq).2.1
            have hdelimiters := hd.opener
            have hmem := some_mem_glyphs hmem
            simp only [Delimiters.enclose, List.mem_append, not_or] at hmem hdelimiters
            rcases hmem with h | h | h
            · exact hdelimiters.1 h
            · exact hbody h
            · exact hdelimiters.2 h
        simpa [Text.holed] using hne.symm
    rw [renderFresh_ok (hrun i)]
    refine congrArg Except.ok ((congrArg (restore p.regions) (hwrite i)).trans ?_)
    exact (congrArg (restore p.regions) (write_atoms e.delimiters i.1 ps)).trans
      ((restore_shown hopener hkept).trans (fill_restored ..).symm)

/-- What a key is given is put where the key stands and not looked at: to render with a marker and
to replace the marker afterwards gives the same. -/
theorem render_eq_replace_marker {σ : Type} (hd : e.delimiters.Apart)
    (hcache : e.cacheEnabled = false) (hescape : e.autoEscape = false) (hplugins : e.plugins = [])
    (hsound : e.Sound disk) (hclear : e.Unreserved disk)
    (husage : ∀ body, e.Uses disk body → e.delimiters.Plainly key body) (store : CacheStore σ)
    (s : σ) (name : String) (ctx : Context) {v m : String} (hv : e.delimiters.Inert v.toList)
    (hm : e.delimiters.Inert m.toList)
    (hputs : ∀ t, e.Puts disk (e.defaults.merge (ctx.set key (.str v))) t → e.delimiters.Inert t)
    (hmarks : ∀ t, (e.render disk store s name (ctx.set key (.str ""))).outcome = .ok t →
      Text.Marks m.toList t) :
    (e.render disk store s name (ctx.set key (.str v))).outcome =
      (e.render disk store s name (ctx.set key (.str m))).outcome.map
        (·.replace m.toList v.toList) := by
  have hempty : e.delimiters.Inert [] := ⟨by simp [Delimiters.Plain], by simp⟩
  -- the contexts of the renders are members of one family
  let ds : Dict (e.delimiters.Filling → Value) :=
    (Dict.constant e.defaults).merge
      ((Dict.constant ctx).set key fun i => .str (String.ofList i.1))
  have hds : ∀ i : e.delimiters.Filling,
      e.effectiveContext (ctx.set key (.str (String.ofList i.1))) = ds.pick i := by
    intro i
    rw [effectiveContext, hescape, ← Dict.merge_pick, ← Dict.set_pick, Dict.pick_constant,
      Dict.pick_constant]
    rfl
  have hscope : secretScope e disk key ⟨v.toList, hv⟩ (e.defaults.merge (ctx.set key (.str v)))
      ds.pick := by
    refine ⟨ds, fun x hx => ?_, fun _ => rfl, ?_⟩
    · rcases Dict.mem_merge hx with hx | hx
      · exact isSecret_constant x hx
      · rcases Dict.mem_set hx with rfl | hx
        · exact .inr ⟨rfl, rfl⟩
        · exact isSecret_constant x hx
    · have := hds ⟨v.toList, hv⟩
      rw [String.ofList_toList, effectiveContext, hescape] at this
      rw [← this]
      exact .here
  have hfresh := renderFresh_secret hd hplugins hsound hclear
    (secretScope_scopes hd (v := ⟨v.toList, hv⟩) husage hputs) hscope name
  have hrender : name.toList.all isBlank = false → ∀ i : e.delimiters.Filling,
      (e.render disk store s name (ctx.set key (.str (String.ofList i.1)))).outcome =
        (e.renderFresh disk name (ds.pick i)).1 := by
    intro hname i
    rw [render_uncached hcache store s hname, hds i]
  cases hname : name.toList.all isBlank with
  | true =>
    rw [render_blank store s hname, render_blank store s hname]
    rfl
  | false =>
    have hrv := hrender hname ⟨v.toList, hv⟩
    have hrm := hrender hname ⟨m.toList, hm⟩
    have hre := hrender hname ⟨[], hempty⟩
    simp only [String.ofList_toList] at hrv hrm
    rcases hfresh with ⟨err, herr⟩ | ⟨bits, hok⟩
    · rw [hrv, hrm, herr, herr]
      rfl
    · rw [hok] at hrv hrm hre
      rw [hrv, hrm, Except.map, Text.replace_fill (hmarks _ hre)]

/-- The template that shows one value, rendered without loops, blocks and other templates. -/
theorem renderFresh_greeting (ctx : Context) :
    (single "\x7bk\x7d!".toList).renderFresh ⟨[], [], none⟩ "t" ctx =
      (.ok (ProtectedRegions.restore [] (resolveConditionals .braces ctx
        ((single []).substitution.apply "\x7bk\x7d!".toList ctx))), ["t"]) :=
  renderFresh_single rfl rfl (by decide +kernel) (List.isEmpty_iff.mp (by decide +kernel))
    (List.isEmpty_iff.mp (by decide +kernel)) (List.isEmpty_iff.mp (by decide +kernel))
    (List.isEmpty_iff.mp (by decide +kernel)) (List.isEmpty_iff.mp (by decide +kernel)) ctx

theorem uses_greeting {disk : Disk} {body : Text}
    (h : (single "\x7bk\x7d!".toList).Uses disk body) : body = ['k'] := by
  obtain ⟨name, s, hload, hfree, hinfix⟩ := h.isInfix
  obtain rfl := loadFirst_single hload
  have htidy : Outline.Tidy (P := Text) .braces id [.tag ['k'], .plain ['!']] := by decide
  have hmem := Outline.mem_of_isInfix Delimiters.apart_braces htidy hfree hinfix
  simpa using hmem

/-- The marker is replaced by what the key is given. -/
theorem render_eq_replace_marker_greeting :
    ((single "\x7bk\x7d!".toList).render ⟨[], [], none⟩ .memory [] "t" [("k", .str "a")]).outcome =
      ((single "\x7bk\x7d!".toList).render ⟨[], [], none⟩ .memory [] "t"
        [("k", .str "m")]).outcome.map (·.replace "m".toList "a".toList) := by
  have hvariable : ∀ v, reading .braces Delimiters.braces.variableTag ['k'] = some v →
      v = ⟨['k'], none⟩ := by
    intro v hv
    exact (Option.some.inj (hv.symm.trans (by rfl)))
  refine render_eq_replace_marker (e := single "\x7bk\x7d!".toList)
    Delimiters.apart_braces rfl rfl rfl ?_ ?_ ?_ .memory [] "t" [] (v := "a") (m := "m")
    ⟨by decide, by simp [opener]⟩ ⟨by decide, by simp [opener]⟩ ?_ ?_
  · intro name s hload
    obtain rfl := loadFirst_single hload
    exact ⟨[.piece (.tag ['k']), .piece (.plain ['!'])], rfl, by decide,
      .inl (by decide), by decide, trivial⟩
  · intro name s hload
    obtain rfl := loadFirst_single hload
    simp [opener]
  · intro body hbody
    obtain rfl := uses_greeting hbody
    refine ⟨fun v hv => ?_, fun condition h => ?_⟩
    · obtain rfl := hvariable v hv
      exact .inr rfl
    · have hnone : reading Delimiters.braces Delimiters.braces.conditionalTag ['k'] = none := by rfl
      rcases h with h | h
      · exact absurd (hnone.symm.trans h) (by simp)
      · exact absurd (hnone.symm.trans h) (by simp)
  · rintro t ⟨c, body, v, hc, hbody, hread, htext⟩
    obtain rfl := hc.eq_of_text
    obtain rfl := uses_greeting hbody
    obtain rfl := hvariable v hread
    obtain rfl : "a".toList = t := Option.some.inj htext
    exact ⟨by decide, by simp [opener]⟩
  · intro t ht
    rw [render_uncached rfl _ _ (by decide), renderFresh_greeting] at ht
    obtain rfl : "!".toList = t := (by decide +kernel : _ = _).trans (Except.ok.inj ht)
    exact Text.marks_of_foreign (by decide) (by simp)

/-- A value that spells tags is read as a template. -/
theorem render_ne_replace_marker :
    ((single "\x7bk\x7d!".toList).render ⟨[], [], none⟩ .memory [] "t"
        [("k", .str "\x7bif true\x7da\x7bendif\x7d")]).outcome ≠
      ((single "\x7bk\x7d!".toList).render ⟨[], [], none⟩ .memory [] "t"
        [("k", .str "m")]).outcome.map
          (·.replace "m".toList "\x7bif true\x7da\x7bendif\x7d".toList) := by
  intro h
  rw [render_uncached rfl _ _ (by decide), render_uncached rfl _ _ (by decide),
    renderFresh_greeting, renderFresh_greeting] at h
  have := Except.ok.inj h
  revert this
  decide +kernel

end Engine

end Stencil
