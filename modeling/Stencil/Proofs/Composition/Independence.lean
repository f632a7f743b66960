import Stencil.Proofs.Composition.Survey
import Stencil.Proofs.Tag.Unclosed

/-!
# Renders and the context

Two renders of a template, in any two contexts that put no tags into the place of variables, ask
for the same templates in the same order, and fail with the same error or not at all. Templates may
include each other and extend each other in any way; blocks must balance, and a template has one
base at most.
-/

namespace Stencil

open Recognizer Outline

namespace Engine

variable {e : Engine} {disk : Disk}

/-- Which templates a render asks for, and whether and how it fails, does not depend on what the
context has to say. -/
theorem render_independent {σ τ : Type} (hd : e.delimiters.Apart) (hcache : e.cacheEnabled = false)
    (hplugins : e.plugins = []) (hsources : e.Composable disk) {ctx ctx' : Context}
    (hputs : ∀ t, e.Puts disk (e.effectiveContext ctx) t → e.delimiters.Plain t)
    (hputs' : ∀ t, e.Puts disk (e.effectiveContext ctx') t → e.delimiters.Plain t)
    (store : CacheStore σ) (s : σ) (store' : CacheStore τ) (s' : τ) (name : String) :
    (e.render disk store s name ctx).requests = (e.render disk store' s' name ctx').requests ∧
      ∀ err, (e.render disk store s name ctx).outcome = .error err ↔
        (e.render disk store' s' name ctx').outcome = .error err := by
  cases hname : name.toList.all isBlank with
  | true =>
    rw [render_blank store s hname, render_blank store' s' hname]
    exact ⟨rfl, fun err => Iff.rfl⟩
  | false =>
    obtain ⟨hrequests, houtcome⟩ :=
      render_follows_survey ctx hd hcache hplugins hsources hputs store s hname
    obtain ⟨hrequests', houtcome'⟩ :=
      render_follows_survey ctx' hd hcache hplugins hsources hputs' store' s' hname
    refine ⟨hrequests.trans hrequests'.symm, fun err => ?_⟩
    cases hanswer : (survey (e.links disk) (e.depthBound disk) [] name []).1 with
    | none =>
      rw [hanswer] at houtcome houtcome'
      obtain ⟨t, ht⟩ := houtcome
      obtain ⟨t', ht'⟩ := houtcome'
      rw [ht, ht']
      simp
    | some stop =>
      rw [hanswer] at houtcome houtcome'
      cases stop with
      | outOfFuel => exact houtcome.elim
      | failed err' =>
        simp only at houtcome houtcome'
        rw [houtcome, houtcome']

/-- An engine with a template that includes another, which shows one value. -/
def partials : Engine where
  sources := [("t", "\x7binclude: p\x7d".toList), ("p", "\x7bk\x7d".toList)]
  cacheEnabled := false
  autoEscape := false

theorem loadFirst_partials {name : String} {s : Text}
    (h : Loader.loadFirst disk partials.allLoaders name = .ok s) :
    s = Delimiters.braces.enclose "include: p".toList ∨ s = Delimiters.braces.enclose ['k'] := by
  by_cases ht : "t" = name
  · have : s = "\x7binclude: p\x7d".toList := by
      simpa [allLoaders, partials, Loader.loadFirst, Loader.load, Dict.get?, ht] using h.symm
    exact .inl this
  · by_cases hp : "p" = name
    · have : s = "\x7bk\x7d".toList := by
        simpa [allLoaders, partials, Loader.loadFirst, Loader.load, Dict.get?, ht, hp] using h.symm
      exact .inr this
    · simp [allLoaders, partials, Loader.loadFirst, Loader.load, Dict.get?, ht, hp, Error.kind] at h

theorem uses_partials {body : Text} (h : partials.Uses disk body) :
    body = "include: p".toList ∨ body = ['k'] := by
  obtain ⟨name, s, hload, hfree, hinfix⟩ := h.isInfix
  have honly : ∀ {b : Text}, Delimiters.braces.Free b → s = Delimiters.braces.enclose b →
      body = b := by
    rintro b hb rfl
    have htidy : Tidy (P := Text) Delimiters.braces id [.tag b] :=
      List.forall_mem_cons.mpr ⟨hb, by simp⟩
    have hmem := mem_of_isInfix Delimiters.apart_braces htidy hfree (by
        rw [write_cons, write_nil, List.append_nil]
        exact hinfix)
    simpa using hmem
  rcases loadFirst_partials hload with hs | hs
  · exact .inl (honly (by decide) hs)
  · exact .inr (honly (by decide) hs)

theorem composable_partials : partials.Composable disk := by
  intro name s hload
  rcases loadFirst_partials hload with rfl | rfl
  · exact ⟨[.piece (.tag "include: p".toList)], rfl, ⟨by decide, .inl (by decide), trivial⟩,
      .other ⟨by decide, by decide⟩ (by decide) .nil, by decide⟩
  · exact ⟨[.piece (.tag ['k'])], rfl, ⟨by decide, .inl (by decide), trivial⟩,
      .other ⟨by decide, by decide⟩ (by decide) .nil, by decide⟩

theorem plain_of_puts_partials {s : String} (hs : Delimiters.braces.Plain s.toList) {t : Text}
    (h : partials.Puts disk [("k", .str s)] t) : Delimiters.braces.Plain t := by
  obtain ⟨c, body, v, hc, hbody, hread, htext⟩ := h
  obtain rfl := hc.eq_of_text
  rcases uses_partials hbody with rfl | rfl
  · have hnone : reading Delimiters.braces Delimiters.braces.variableTag "include: p".toList =
        none := by
      rfl
    exact absurd (hnone.symm.trans hread) (by simp)
  · obtain rfl : v = ⟨['k'], none⟩ := Option.some.inj (hread.symm.trans (by rfl))
    obtain rfl : s.toList = t := Option.some.inj htext
    exact hs

/-- Two values in a partial. -/
theorem render_independent_partials :
    (partials.render ⟨[], [], none⟩ .memory [] "t" [("k", .str "a")]).requests =
        (partials.render ⟨[], [], none⟩ .memory [] "t" [("k", .str "b")]).requests ∧
      ∀ err, (partials.render ⟨[], [], none⟩ .memory [] "t" [("k", .str "a")]).outcome =
          .error err ↔
        (partials.render ⟨[], [], none⟩ .memory [] "t" [("k", .str "b")]).outcome = .error err :=
  render_independent Delimiters.apart_braces rfl rfl composable_partials
    (fun _ => plain_of_puts_partials (by decide)) (fun _ => plain_of_puts_partials (by decide))
    .memory [] .memory [] "t"

/-- The partial is composed first, and what has become of it takes its place. -/
theorem compose_partials {ctx : Context} {t : Text}
    (hprocess : partials.process ctx false "\x7bk\x7d".toList = t) (fuel : Nat) :
    partials.compose ⟨[], [], none⟩ ctx (fuel + 2) [] [] "t" {} =
      partials.finish ⟨[], [], none⟩ ctx (fuel + 1) ["t"] [] t ⟨[], ["t", "p"]⟩ := by
  have hinclude : Tag.scan partials.delimiters.includeTag "\x7binclude: p\x7d".toList =
      [⟨0, "\x7binclude: p\x7d".toList, "p", by decide⟩] := by rfl
  rw [compose_including (s := "\x7bk\x7d".toList) (by decide) rfl (by decide +kernel) hinclude rfl
    (by decide +kernel) (List.isEmpty_iff.mp (by decide +kernel))
    (List.isEmpty_iff.mp (by decide +kernel)) (List.isEmpty_iff.mp (by decide +kernel)) hprocess]
  congr 1
  simp [Text.splice, Text.spliceFrom, Tag.stop]

/-- What becomes of the partial. -/
theorem process_partials {s : String} {t : Text} {isDocument : Bool} {text : Text}
    (hbound : (Tag.scan partials.delimiters.loopClosing text).isEmpty = true)
    (hlegacy : (Tag.scan partials.delimiters.legacyClosing text).isEmpty = true)
    (h : resolveConditionals partials.delimiters [("k", .str s)]
      (partials.substitution.apply text [("k", .str s)]) = t) :
    partials.process [("k", .str s)] isDocument text = t := by
  rw [process_unclosed rfl (List.isEmpty_iff.mp hbound) (List.isEmpty_iff.mp hlegacy), h]

/-- A value without tags is all that the partial leaves. -/
theorem renderFresh_partials_plain :
    partials.renderFresh ⟨[], [], none⟩ "t" [("k", .str "a")] = (.ok ['a'], ["t", "p"]) := by
  have hbase : Tag.scan partials.delimiters.baseTag ['a'] = [] :=
    List.isEmpty_iff.mp (by decide +kernel)
  obtain ⟨n, hn⟩ := partials.exists_depthBound ⟨[], [], none⟩
  have hcompose : partials.compose ⟨[], [], none⟩ [("k", .str "a")]
      (partials.depthBound ⟨[], [], none⟩) [] [] "t" {} = (.ok ['a'], ⟨[], ["t", "p"]⟩) := by
    rw [hn, compose_partials (process_partials (t := ['a']) (by decide +kernel)
      (by decide +kernel) (by decide +kernel)), finish, hbase]
    dsimp only [List.head?_nil]
    rw [Blocks.resolve_unclosed (List.isEmpty_iff.mp (by decide +kernel))]
  rw [renderFresh_ok hcompose, process_partials (t := ['a']) (by decide +kernel) (by decide +kernel)
    (by decide +kernel)]
  rfl

/-- A value that spells the tag of a base is looked for behind the partial. -/
theorem renderFresh_partials_spelled :
    partials.renderFresh ⟨[], [], none⟩ "t" [("k", .str "\x7bextends: q\x7d")] =
      (.error (.notFound "q"), ["t", "p", "q"]) := by
  have hbase : Tag.scan partials.delimiters.baseTag "\x7bextends: q\x7d".toList =
      [⟨0, "\x7bextends: q\x7d".toList, "q", by decide⟩] := by rfl
  exact renderFresh_misled (compose_partials (process_partials
    (t := "\x7bextends: q\x7d".toList) (by decide +kernel) (by decide +kernel)
    (by decide +kernel))) hbase (by decide) rfl

/-- A value that spells the tag of a base makes a render ask for it. -/
theorem render_asks_for_spelled_base :
    (partials.render ⟨[], [], none⟩ .memory [] "t" [("k", .str "a")]).requests = ["t", "p"] ∧
      (partials.render ⟨[], [], none⟩ .memory [] "t" [("k", .str "a")]).outcome = .ok ['a'] ∧
      (partials.render ⟨[], [], none⟩ .memory [] "t"
        [("k", .str "\x7bextends: q\x7d")]).requests = ["t", "p", "q"] ∧
      (partials.render ⟨[], [], none⟩ .memory [] "t"
        [("k", .str "\x7bextends: q\x7d")]).outcome = .error (.notFound "q") := by
  have heffective : ∀ s, partials.effectiveContext [("k", .str s)] = [("k", .str s)] :=
    fun _ => rfl
  rw [render_uncached rfl _ _ (by decide), render_uncached rfl _ _ (by decide), heffective,
    heffective, renderFresh_partials_plain, renderFresh_partials_spelled]
  exact ⟨rfl, rfl, rfl, rfl⟩

end Engine

end Stencil
