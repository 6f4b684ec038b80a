import Rabotka.Lib.Rewriting
import Rabotka.Lib.Trim
import Rabotka.Moderation.Normalize

/-!
# Login links in plain messages

`withLoginLinks` collects the links to the site in a plain message, and then replaces one after
another by a short link that logs the reader in, wherever it occurs in the text as rewritten so
far. Texts are UTF-16 units; the codes of the short links are drawn at random, and given here.

What is wanted is that each link is replaced by its own short link (`linksReplaced`). The loop does
that if and only if a link is never found inside another one (`login_links_replaced_iff`): the
link to a list that comes before the link to one of its items spoils the latter
(`first_link_begins_second`), and a link to `/s` would spoil the short links before it.
-/

namespace Rabotka.Outbound

open Lib.Trim Lib.Replacing Lib.Rewriting List
open Moderation (Units)

/-! ### The code -/

def slash : UInt16 := 47

/-- `[^\s<>"')\]}]`. -/
def isLinkUnit (x : UInt16) : Bool :=
  !isSpace x && !(units "<>\"')]\x7d").contains x

/-- `(FRONTEND_URL ?? 'http://localhost:3000').replace(/\/+$/, '')`. -/
def baseOf (frontendUrl : Option Units) : Units :=
  (frontendUrl.getD (units "http://localhost:3000")).rdropWhile (· == slash)

/-- The address of the site: something is left of it, all of it units that a link goes on with. -/
structure Site where
  frontendUrl : Option Units
  nonempty : baseOf frontendUrl ≠ []
  plain : ∀ x ∈ baseOf frontendUrl, isLinkUnit x = true

/-- `base`. -/
def Site.base (site : Site) : Units :=
  baseOf site.frontendUrl

/-- `url.slice(base.length)`. -/
def Site.pathOf (site : Site) (url : Units) : Units :=
  url.drop site.base.length

/-- The filter on the paths: `!/^\/(r|verify|s)\//.test(path) && path !== '' && path !== '/'`. -/
def isRewritable (path : Units) : Bool :=
  !((units "/r/").isPrefixOf path || (units "/verify/").isPrefixOf path
    || (units "/s/").isPrefixOf path) && path != [] && path != [slash]

/-- `text.includes(base)`. -/
def includes (base text : Units) : Bool :=
  text.tails.any base.isPrefixOf

/-- `text.match(…)`: the links to the site, each as long as it can be. -/
def Site.links (site : Site) (text : Units) : List Units :=
  words (pieces site.base isLinkUnit text)

/-- `urls`. -/
def Site.loginUrls (site : Site) (text : Units) : List Units :=
  (site.links text).eraseDups.filter fun url => isRewritable (site.pathOf url)

/-- `shortLink`, from the code that `mint` gives, if it gives one. -/
def Site.shortLink (site : Site) (mint : Units → Option Units) (path : Units) : Option Units :=
  (mint path).map fun code => site.base ++ units "/s/" ++ code

/-- The loop over the links. -/
def Site.rewriteLinks (site : Site) (mint : Units → Option Units) : List Units → Units → Units
  | [], text => text
  | url :: urls, text =>
    match site.shortLink mint (site.pathOf url) with
    | some link => site.rewriteLinks mint urls (replaceAll url link text)
    | none => site.rewriteLinks mint urls text

variable {Profile : Type*}

/-- `withLoginLinks`. -/
def Site.withLoginLinks (site : Site) (mint : Profile → Units → Option Units) (text : Units)
    (profileId : Option Profile) : Units :=
  match profileId with
  | none => text
  | some profile =>
    if includes site.base text then
      site.rewriteLinks (mint profile) (site.loginUrls text) text
    else text

/-! ### What the code is for -/

/-- A code has 43 units, with which a link goes on, and does not occur in the text. -/
structure Codes (mint : Units → Option Units) (text : Units) : Prop where
  length : ∀ path code, mint path = some code → code.length = 43
  plain : ∀ path code, mint path = some code → ∀ x ∈ code, isLinkUnit x = true
  fresh : ∀ path code, mint path = some code → ¬ code <:+: text

/-- The short link of a link, or the link itself if there is none. -/
def Site.shortened (site : Site) (mint : Units → Option Units) (url : Units) : Units :=
  (site.shortLink mint (site.pathOf url)).getD url

/-- Every link is replaced by its own short link, and nothing else is changed. -/
def Site.linksReplaced (site : Site) (mint : Units → Option Units) (text : Units) : Units :=
  renderWith (fun url => if isRewritable (site.pathOf url) then site.shortened mint url else url)
    (pieces site.base isLinkUnit text)

/-- What stands for a link when those in `done` have been replaced. -/
def Site.standing (site : Site) (mint : Units → Option Units) (done : List Units) (url : Units) :
    Units :=
  if url ∈ done then site.shortened mint url else url

/-- When its turn comes, a link with a short link is not inside what stands for another one. -/
def Site.LinksApart (site : Site) (mint : Units → Option Units) (text : Units) : Prop :=
  ∀ done url todo, site.loginUrls text = done ++ url :: todo →
    (site.shortLink mint (site.pathOf url)).isSome →
    ∀ other ∈ site.links text, url ≠ other → ¬ url <:+: site.standing mint done other

/-! ### The links of a text -/

section

variable (site : Site) (mint : Units → Option Units) (text : Units)

/-- The replacements, in the order they are made. -/
def Site.steps (urls : List Units) : List (Units × Units) :=
  urls.filterMap fun url => (site.shortLink mint (site.pathOf url)).map fun link => (url, link)

/-- The loop makes the replacements one after another. -/
theorem Site.rewriteLinks_eq (urls : List Units) :
    site.rewriteLinks mint urls text = rewriteAll (site.steps mint urls) text := by
  induction urls generalizing text with
  | nil => rfl
  | cons url urls ih =>
    rw [rewriteLinks, steps, filterMap_cons]
    cases site.shortLink mint (site.pathOf url) with
    | none => exact ih text
    | some link => exact ih (replaceAll url link text)

theorem Site.cut : Cut site.base isLinkUnit (pieces site.base isLinkUnit text) :=
  cut_pieces site.nonempty site.plain text

/-- The links and the units between make up the text. -/
theorem Site.render_pieces : renderWith id (pieces site.base isLinkUnit text) = text :=
  renderWith_id_pieces site.nonempty text

theorem Site.isWord_of_mem {url : Units} (h : url ∈ site.links text) :
    IsWord site.base isLinkUnit url :=
  (site.cut text).isWord url h

/-- A link is somewhere in the text. -/
theorem Site.infix_of_mem {url : Units} (h : url ∈ site.links text) : url <:+: text := by
  have hoccurs := infix_of_mem_words url h
  rwa [site.render_pieces] at hoccurs

theorem Site.mem_loginUrls {url : Units} : url ∈ site.loginUrls text
      ↔ url ∈ site.links text ∧ isRewritable (site.pathOf url) = true := by
  rw [loginUrls, mem_filter, mem_eraseDups]

/-- Without the address of the site there is no link. -/
theorem Site.links_eq_nil (h : includes site.base text = false) : site.links text = [] := by
  refine eq_nil_iff_forall_not_mem.mpr fun url hurl => ?_
  obtain ⟨before, after, hoccurs⟩ :=
    (site.isWord_of_mem text hurl).base.isInfix.trans (site.infix_of_mem text hurl)
  have htrue : includes site.base text = true := by
    rw [includes, any_eq_true]
    refine ⟨site.base ++ after, (mem_tails _ _).mpr ⟨before, ?_⟩, ?_⟩
    · rw [← append_assoc, hoccurs]
    · exact isPrefixOf_iff_prefix.mpr (prefix_append _ _)
  exact Bool.false_ne_true (h.symm.trans htrue)

variable {site mint text}

theorem Site.shortLink_eq_some {path link : Units} (h : site.shortLink mint path = some link) :
    ∃ code, mint path = some code ∧ link = site.base ++ units "/s/" ++ code := by
  obtain ⟨code, hcode, rfl⟩ := Option.map_eq_some_iff.mp h
  exact ⟨code, hcode, rfl⟩

theorem Site.mem_steps {urls : List Units} {step : Units × Units}
    (h : step ∈ site.steps mint urls) :
    step.1 ∈ urls ∧ site.shortLink mint (site.pathOf step.1) = some step.2 := by
  obtain ⟨url, hurl, hstep⟩ := mem_filterMap.mp h
  obtain ⟨link, hlink, rfl⟩ := Option.map_eq_some_iff.mp hstep
  exact ⟨hurl, hlink⟩

theorem Site.map_fst_steps (urls : List Units) : (site.steps mint urls).map Prod.fst
      = urls.filter fun url => (site.shortLink mint (site.pathOf url)).isSome := by
  induction urls with
  | nil => rfl
  | cons url urls ih =>
    rw [steps, filterMap_cons, filter_cons]
    cases site.shortLink mint (site.pathOf url) with
    | none => exact ih
    | some link => exact congrArg (url :: ·) ih

/-- What the replacements mean for a link. -/
theorem Site.meant_steps (urls : List Units) (url : Units) :
    meant (site.steps mint urls) url = site.standing mint urls url := by
  induction urls with
  | nil => rfl
  | cons first urls ih =>
    rw [steps, filterMap_cons, standing]
    cases hlink : site.shortLink mint (site.pathOf first) with
    | none =>
      refine ih.trans ?_
      rw [standing]
      by_cases heq : url = first
      · have hnone : site.shortened mint first = first := by rw [shortened, hlink, Option.getD_none]
        rw [heq, if_pos mem_cons_self, hnone, ite_self]
      · simp only [mem_cons, heq, false_or]
    | some link =>
      by_cases heq : url = first
      · have hsome : site.shortened mint first = link := by rw [shortened, hlink, Option.getD_some]
        rw [heq, if_pos mem_cons_self, hsome]
        exact meant_cons_self _ _ _
      · refine (meant_cons_of_ne _ (Ne.symm heq)).trans (ih.trans ?_)
        rw [standing]
        simp only [mem_cons, heq, false_or]

/-- A short link starts as the links do and is made of their units. -/
theorem Codes.isWord (hmint : Codes mint text) {path link : Units}
    (h : site.shortLink mint path = some link) : IsWord site.base isLinkUnit link := by
  obtain ⟨code, hcode, rfl⟩ := Site.shortLink_eq_some h
  refine ⟨(prefix_append _ _).trans (prefix_append _ _), fun x hx => ?_⟩
  rcases mem_append.mp hx with hx | hx
  · rcases mem_append.mp hx with hx | hx
    · exact site.plain x hx
    · exact all_eq_true.mp (by decide : (units "/s/").all isLinkUnit = true) x hx
  · exact hmint.plain path code hcode x hx

/-- The replacements are fair: short links are of one length and not found in a link. -/
theorem Codes.fair (hmint : Codes mint text) :
    Fair (site.base.length + 46) (site.links text) (site.steps mint (site.loginUrls text)) where
  key step hstep := ((site.mem_loginUrls text).mp (Site.mem_steps hstep).1).1
  nonempty _ hword := (site.isWord_of_mem text hword).ne_nil site.nonempty
  pos := Nat.succ_pos _
  length step hstep := by
    obtain ⟨code, hcode, hlink⟩ := Site.shortLink_eq_some (Site.mem_steps hstep).2
    rw [hlink, length_append, length_append, hmint.length _ _ hcode]
    rfl
  fresh step hstep word hword hoccurs := by
    obtain ⟨code, hcode, hlink⟩ := Site.shortLink_eq_some (Site.mem_steps hstep).2
    rw [hlink] at hoccurs
    exact hmint.fresh _ _ hcode
      (((suffix_append _ code).isInfix.trans hoccurs).trans (site.infix_of_mem text hword))
  nodup := by
    rw [Site.map_fst_steps]
    exact ((nodup_eraseDups _).filter _).filter _

/-! ### The message sent -/

/-- The replacements keep apart on every link, as the links do. -/
theorem Site.linksApart_iff : site.LinksApart mint text
      ↔ ∀ other ∈ site.links text, Apart (site.steps mint (site.loginUrls text)) other := by
  constructor
  · intro hapart other hother done old new todo hsteps hne
    obtain ⟨before, after, hurls, hdone, hafter⟩ := filterMap_eq_append_iff.mp hsteps
    obtain ⟨passed, url, todoUrls, hlater, hpassed, hurl, -⟩ := filterMap_eq_cons_iff.mp hafter
    obtain ⟨link, hlink, hstep⟩ := Option.map_eq_some_iff.mp hurl
    obtain ⟨rfl, rfl⟩ := Prod.mk.inj hstep
    have hwhole : site.steps mint (before ++ passed) = done := by
      rw [steps, filterMap_append, hdone, filterMap_eq_nil_iff.mpr hpassed, append_nil]
    rw [← hwhole, meant_steps]
    refine hapart (before ++ passed) url todoUrls ?_ (hlink ▸ rfl) other hother hne
    rw [hurls, hlater, append_assoc]
  · intro hapart done url todo hurls hsome other hother hne
    obtain ⟨link, hlink⟩ := Option.isSome_iff_exists.mp hsome
    rw [← meant_steps]
    refine hapart other hother (site.steps mint done) url link (site.steps mint todo) ?_ hne
    rw [hurls, steps, filterMap_append, filterMap_cons, hlink]
    rfl

/-- The loop leaves what it should, if and only if the links keep apart. -/
theorem Codes.rewriteLinks_eq_iff (hmint : Codes mint text) :
    site.rewriteLinks mint (site.loginUrls text) text = site.linksReplaced mint text
      ↔ site.LinksApart mint text := by
  have hfair : Fair _ (site.links text) (site.steps mint (site.loginUrls text)) := hmint.fair
  have hword : ∀ url ∈ site.links text, IsWord site.base isLinkUnit url :=
    fun url hurl => site.isWord_of_mem text hurl
  have hsteps : OfWords site.base isLinkUnit (site.steps mint (site.loginUrls text)) :=
    fun step hstep => ⟨hword _ (hfair.key step hstep), hmint.isWord (Site.mem_steps hstep).2⟩
  have hloop : site.rewriteLinks mint (site.loginUrls text) text
      = renderWith (rewriteAll (site.steps mint (site.loginUrls text)))
          (pieces site.base isLinkUnit text) := by
    have hall := (site.cut text).rewriteAll_renderWith (f := id) site.nonempty hsteps hword
    rwa [site.render_pieces, ← site.rewriteLinks_eq] at hall
  have hspec : site.linksReplaced mint text
      = renderWith (meant (site.steps mint (site.loginUrls text)))
          (pieces site.base isLinkUnit text) := by
    refine renderWith_congr fun url hurl => ?_
    rw [Site.meant_steps, Site.standing]
    have hmem : url ∈ site.loginUrls text ↔ _ := site.mem_loginUrls text
    by_cases h : isRewritable (site.pathOf url) = true
    · rw [if_pos h, if_pos (hmem.mpr ⟨hurl, h⟩)]
    · rw [if_neg h, if_neg fun hin => h (hmem.mp hin).2]
  rw [hloop, hspec, Site.linksApart_iff]
  constructor
  · intro heq other hother
    have hsame := (site.cut text).renderWith_inj
      (fun url hurl => (hword url hurl).rewriteAll site.nonempty hsteps)
      (fun url hurl => (hword url hurl).meant hsteps) heq
    exact (hfair.rewriteAll_eq_iff hother).mp (hsame other hother)
  · exact fun hapart => renderWith_congr fun other hother =>
      (hfair.rewriteAll_eq_iff hother).mpr (hapart other hother)

end

variable (site : Site) (mint : Profile → Units → Option Units) (text : Units)

/-- The codes that a message to a profile may use: none without a profile. -/
def codesFor (mint : Profile → Units → Option Units) (profileId : Option Profile) (path : Units) :
    Option Units :=
  profileId.bind fun profile => mint profile path

/-- The early returns leave what the loop would leave. -/
theorem Site.withLoginLinks_eq (profileId : Option Profile) :
    site.withLoginLinks mint text profileId
      = site.rewriteLinks (codesFor mint profileId) (site.loginUrls text) text := by
  cases profileId with
  | none =>
    have hnone : ∀ urls, site.rewriteLinks (codesFor mint none) urls text = text := by
      intro urls
      induction urls with
      | nil => rfl
      | cons url urls ih => exact ih
    exact (hnone _).symm
  | some profile =>
    rw [withLoginLinks]
    by_cases h : includes site.base text = true
    · rw [if_pos h]
      rfl
    · have hurls : site.loginUrls text = [] := by
        rw [loginUrls, site.links_eq_nil text (Bool.eq_false_iff.mpr h)]
        rfl
      rw [if_neg h, hurls, rewriteLinks]

/-- **A message is sent with each of its links replaced by its own short link and nothing else
changed, if and only if no link with a short link is found inside what stands for another one when
its turn comes**: a longer link that comes later or stays, or the short link of an earlier one. -/
theorem login_links_replaced_iff (profileId : Option Profile)
    (hmint : Codes (codesFor mint profileId) text) :
    site.withLoginLinks mint text profileId = site.linksReplaced (codesFor mint profileId) text
      ↔ site.LinksApart (codesFor mint profileId) text := by
  rw [site.withLoginLinks_eq]
  exact hmint.rewriteLinks_eq_iff

/-- The site of the examples. -/
def rabotkaSite : Site where
  frontendUrl := some (units "https://rabotka.ci/")
  nonempty := by decide
  plain := all_eq_true.mp (by decide)

/-- A code for the list of jobs, and another one for the first job. -/
def jobCodes (_profile : Unit) (path : Units) : Option Units :=
  if path = units "/jobs" then some (replicate 43 65)
  else if path = units "/jobs/1" then some (replicate 43 66)
  else none

theorem codes_jobCodes (hA : ¬ replicate 43 65 <:+: text)
    (hB : ¬ replicate 43 66 <:+: text) : Codes (codesFor jobCodes (some ())) text := by
  have hcases : ∀ path code, codesFor jobCodes (some ()) path = some code →
      code = replicate 43 65 ∨ code = replicate 43 66 := by
    intro path code h
    rw [codesFor, Option.bind_some, jobCodes] at h
    split_ifs at h
    · exact Or.inl (Option.some.inj h).symm
    · exact Or.inr (Option.some.inj h).symm
  refine ⟨fun path code h => ?_, fun path code h => ?_, fun path code h => ?_⟩
  · rcases hcases path code h with rfl | rfl <;> rfl
  · rcases hcases path code h with rfl | rfl
    · exact fun x hx => eq_of_mem_replicate hx ▸ rfl
    · exact fun x hx => eq_of_mem_replicate hx ▸ rfl
  · rcases hcases path code h with rfl | rfl
    · exact hA
    · exact hB

/-- In a text with one link, the link is replaced. -/
theorem one_link_replaced :
    rabotkaSite.withLoginLinks jobCodes (units "https://rabotka.ci/jobs") (some ())
      = rabotkaSite.linksReplaced (codesFor jobCodes (some ()))
          (units "https://rabotka.ci/jobs") := by
  refine (login_links_replaced_iff rabotkaSite jobCodes _ (some ())
    (codes_jobCodes _ (by decide +kernel) (by decide +kernel))).mpr ?_
  have hlinks : rabotkaSite.links (units "https://rabotka.ci/jobs")
      = [units "https://rabotka.ci/jobs"] := by decide +kernel
  intro done url todo hurls _ other hother hne
  have hurl : url ∈ rabotkaSite.links (units "https://rabotka.ci/jobs") :=
    ((rabotkaSite.mem_loginUrls _).mp (hurls ▸ mem_append_right _ mem_cons_self)).1
  rw [hlinks, mem_singleton] at hurl hother
  exact absurd (hurl.trans hother.symm) hne

/-- **When the link to the jobs comes before the link to the first job, it is replaced in both**:
the second one becomes the short link of the first with a rest, and its own short link is not in
the text. -/
theorem first_link_begins_second : Codes (codesFor jobCodes (some ()))
        (units "https://rabotka.ci/jobs https://rabotka.ci/jobs/1")
      ∧ rabotkaSite.withLoginLinks jobCodes
          (units "https://rabotka.ci/jobs https://rabotka.ci/jobs/1") (some ())
        = units "https://rabotka.ci/s/" ++ replicate 43 65 ++ units " https://rabotka.ci/s/"
          ++ replicate 43 65 ++ units "/1"
      ∧ rabotkaSite.linksReplaced (codesFor jobCodes (some ()))
          (units "https://rabotka.ci/jobs https://rabotka.ci/jobs/1")
        = units "https://rabotka.ci/s/" ++ replicate 43 65 ++ units " https://rabotka.ci/s/"
          ++ replicate 43 66 :=
  ⟨codes_jobCodes _ (by decide +kernel) (by decide +kernel), by decide +kernel, by decide +kernel⟩

end Rabotka.Outbound
