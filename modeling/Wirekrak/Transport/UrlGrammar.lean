import Wirekrak.Lib.Span
import Wirekrak.Transport.Url

/-!
# Wirekrak.Transport.UrlGrammar — `parse_url` against the grammar of WebSocket URLs

A URL is written as a scheme, a host, a port or none, and a path or none; host and path are told apart by the first
`'/'`, host and port by the first `':'` before it.

* `UrlText`: the parts as written, their `text` and the `url` they mean; `Grammatical`.
* `parseUrl_iff`: what the parser accepts, and what it makes of it.
* `parseUrl_right_iff`: the parser is right about a URL unless its host is empty or its port is 65535.
-/

namespace Wirekrak.Transport

open Wirekrak.Lib

/-- The parts of a URL. -/
structure UrlText where
  secure : Bool
  host : List Char
  port : Option (List Char)
  path : List Char
  deriving DecidableEq

def portValue (text : List Char) : ℕ := Nat.ofDigitChars 10 text 0

namespace UrlText

def hostport (t : UrlText) : List Char := t.host ++ t.port.elim [] (':' :: ·)

def text (t : UrlText) : List Char :=
  (if t.secure then "wss://".toList else "ws://".toList) ++ (t.hostport ++ t.path)

/-- What the URL means, with the default port and path. -/
def url (t : UrlText) : ParsedUrl :=
  { secure := t.secure
    host := t.host
    port := t.port.elim (if t.secure then 443 else 80) portValue
    path := if t.path = [] then ['/'] else t.path }

/-- The parts are what the delimiters cut the text into. -/
structure Delimited (t : UrlText) : Prop where
  host : ∀ c ∈ t.host, c ≠ ':' ∧ c ≠ '/'
  port_ne : ∀ text ∈ t.port, text ≠ []
  port_digits : ∀ text ∈ t.port, ∀ c ∈ text, c.isDigit = true
  path : ∀ c ∈ t.path.head?, c = '/'

/-- The grammar: a host, and a port that there is. -/
structure Grammatical (t : UrlText) : Prop extends Delimited t where
  host_ne : t.host ≠ []
  port_range : ∀ text ∈ t.port, 1 ≤ portValue text ∧ portValue text ≤ 65535

/-- What the parser asks for: a host or a port, and not the last port. -/
structure Accepted (t : UrlText) : Prop extends Delimited t where
  host_ne : t.port = none → t.host ≠ []
  port_range : ∀ text ∈ t.port, 1 ≤ portValue text ∧ portValue text < 65535

/-- The schemes differ before either ends. -/
theorem scheme_inj {s s' : Bool} {l l' : List Char}
    (h : (if s then "wss://".toList else "ws://".toList) ++ l =
      (if s' then "wss://".toList else "ws://".toList) ++ l') : s = s' := by
  cases s <;> cases s' <;> first | rfl | exact absurd h (by simp)

theorem head_port (t : UrlText) : ∀ c ∈ (t.port.elim [] (':' :: ·)).head?, c = ':' := by
  intro c hc
  cases hp : t.port with
  | none =>
    rw [hp] at hc
    cases hc
  | some text =>
    rw [hp] at hc
    cases hc
    rfl

section Delimited

variable {t u : UrlText} (h : t.Delimited)

include h

theorem Delimited.hostport_ne_slash : ∀ c ∈ t.hostport, c ≠ '/' := by
  intro c hc
  rcases List.mem_append.mp hc with hc | hc
  · exact (h.host c hc).2
  · cases hp : t.port with
    | none =>
      rw [hp] at hc
      cases hc
    | some text =>
      rw [hp] at hc
      rcases List.mem_cons.mp hc with rfl | hc
      · decide
      · rintro rfl
        exact absurd (h.port_digits text hp _ hc) (by decide)

theorem Delimited.takeWhile_slash : (t.hostport ++ t.path).takeWhile (· ≠ '/') = t.hostport :=
  takeWhile_append_stop (fun c hc => decide_eq_true (h.hostport_ne_slash c hc)) fun c hc => by simp [h.path c hc]

theorem Delimited.dropWhile_slash : (t.hostport ++ t.path).dropWhile (· ≠ '/') = t.path :=
  dropWhile_append_stop (fun c hc => decide_eq_true (h.hostport_ne_slash c hc)) fun c hc => by simp [h.path c hc]

theorem Delimited.takeWhile_colon : t.hostport.takeWhile (· ≠ ':') = t.host :=
  takeWhile_append_stop (fun c hc => decide_eq_true (h.host c hc).1) fun c hc => by simp [t.head_port c hc]

theorem Delimited.dropWhile_colon : t.hostport.dropWhile (· ≠ ':') = t.port.elim [] (':' :: ·) :=
  dropWhile_append_stop (fun c hc => decide_eq_true (h.host c hc).1) fun c hc => by simp [t.head_port c hc]

/-- A text has its parts in one way. -/
theorem Delimited.ext (h' : u.Delimited) (he : t.text = u.text) : t = u := by
  obtain ⟨s, host, port, path⟩ := t
  obtain ⟨s', host', port', path'⟩ := u
  obtain rfl : s = s' := scheme_inj he
  have hrest := List.append_cancel_left he
  have hhp := h.takeWhile_slash
  rw [hrest, h'.takeWhile_slash] at hhp
  have hpath := h.dropWhile_slash
  rw [hrest, h'.dropWhile_slash] at hpath
  have hhost := h.takeWhile_colon
  rw [← hhp, h'.takeWhile_colon] at hhost
  have hport := h.dropWhile_colon
  rw [← hhp, h'.dropWhile_colon] at hport
  have hopt : port' = port := by
    cases port <;> cases port' <;> cases hport <;> rfl
  rw [show host = host' from hhost.symm, show path = path' from hpath.symm, hopt]

end Delimited

end UrlText

/-! ## The parser -/

theorem le_ofDigitChars (cs : List Char) (n : ℕ) : n ≤ Nat.ofDigitChars 10 cs n := by
  rw [Nat.ofDigitChars_eq_ofDigitChars_zero]
  have hle : n ≤ 10 ^ cs.length * n := Nat.le_mul_of_pos_left n (Nat.pow_pos (by decide))
  omega

theorem isDigit_iff {c : Char} : c.isDigit = true ↔ ¬ (c < '0' ∨ '9' < c) := by
  rw [Char.isDigit_iff_toNat]
  constructor
  · rintro ⟨hlo, hhi⟩ (hc | hc)
    · have hlt : c.toNat < '0'.toNat := hc
      omega
    · have hlt : '9'.toNat < c.toNat := hc
      omega
  · intro h
    have hlo : ¬ c.toNat < '0'.toNat := fun hc => h (.inl hc)
    have hhi : ¬ '9'.toNat < c.toNat := fun hc => h (.inr hc)
    omega

/-- The digit loop reads a number below 65535 that is not zero. -/
theorem parsePort_iff {cs : List Char} {n p : ℕ} (hn : n < 65535) :
    parsePort cs n = some p ↔
      (∀ c ∈ cs, c.isDigit = true) ∧ Nat.ofDigitChars 10 cs n = p ∧ 1 ≤ p ∧ p < 65535 := by
  induction cs generalizing n with
  | nil =>
    unfold parsePort
    rw [Nat.ofDigitChars_nil]
    split_ifs with h0
    · simp only [false_iff, not_and]
      omega
    · simp only [Option.some.injEq]
      constructor
      · rintro rfl
        exact ⟨fun c hc => absurd hc List.not_mem_nil, rfl, by omega, hn⟩
      · exact fun h => h.2.1
  | cons c cs ih =>
    unfold parsePort
    rw [Nat.ofDigitChars_cons]
    by_cases hc : c < '0' ∨ '9' < c
    · rw [if_pos hc]
      refine iff_of_false (by nofun) fun h => ?_
      exact isDigit_iff.mp (h.1 c List.mem_cons_self) hc
    · have hd : c.isDigit = true := isDigit_iff.mpr hc
      rw [if_neg hc]
      dsimp only
      rw [Nat.mul_comm n 10]
      by_cases hbig : 65535 ≤ 10 * n + (c.toNat - '0'.toNat)
      · rw [if_pos hbig]
        refine iff_of_false (by nofun) fun h => ?_
        have hle := le_ofDigitChars cs (10 * n + (c.toNat - '0'.toNat))
        omega
      · rw [if_neg hbig, ih (Nat.not_le.mp hbig)]
        simp only [List.forall_mem_cons, hd, true_and]

/-- The scanner over host, port and path, run on what it has cut them into. -/
theorem parseRest_text {t : UrlText} (h : t.Delimited) : parseRest t.secure (t.hostport ++ t.path) =
    if t.hostport = [] then none
    else match t.port with
      | none => some t.url
      | some text => (parsePort text 0).map fun port => { t.url with port := port } := by
  unfold parseRest
  dsimp only
  rw [h.takeWhile_slash, h.dropWhile_slash, h.takeWhile_colon, h.dropWhile_colon]
  by_cases hhost : t.hostport = []
  · rw [if_pos hhost, if_pos hhost]
  · rw [if_neg hhost, if_neg hhost]
    unfold UrlText.url
    cases hp : t.port with
    | none => rfl
    | some text =>
      dsimp only [Option.elim_some]
      rw [if_neg (h.port_ne text hp)]

/-- What is accepted is cut at the delimiters. -/
theorem exists_text_of_parseRest {secure : Bool} {rest : List Char} {u : ParsedUrl}
    (h : parseRest secure rest = some u) :
    ∃ t : UrlText, t.secure = secure ∧ t.hostport ++ t.path = rest ∧ t.Delimited := by
  obtain ⟨hostport, hhp⟩ : ∃ hp, rest.takeWhile (· ≠ '/') = hp := ⟨_, rfl⟩
  have hrest : hostport ++ rest.dropWhile (· ≠ '/') = rest := by
    rw [← hhp]
    exact List.takeWhile_append_dropWhile
  have hcut : hostport.takeWhile (· ≠ ':') ++ hostport.dropWhile (· ≠ ':') = hostport :=
    List.takeWhile_append_dropWhile
  have hhost : ∀ c ∈ hostport.takeWhile (· ≠ ':'), c ≠ ':' ∧ c ≠ '/' := by
    intro c hc
    have hmem : c ∈ rest.takeWhile (· ≠ '/') := hhp ▸ (List.takeWhile_sublist _).subset hc
    exact ⟨by simpa using List.mem_takeWhile_imp hc, by simpa using List.mem_takeWhile_imp hmem⟩
  have hpath : ∀ c ∈ (rest.dropWhile (· ≠ '/')).head?, c = '/' := by
    intro c hc
    simpa using head?_dropWhile _ _ c hc
  unfold parseRest at h
  dsimp only at h
  rw [hhp] at h
  cases hd : hostport.dropWhile (· ≠ ':') with
  | nil =>
    rw [hd, List.append_nil] at hcut
    refine ⟨⟨secure, hostport.takeWhile (· ≠ ':'), none, rest.dropWhile (· ≠ '/')⟩, rfl, ?_, ⟨hhost, ?_, ?_, hpath⟩⟩
    · show hostport.takeWhile _ ++ [] ++ rest.dropWhile _ = rest
      rw [List.append_nil, hcut, hrest]
    · nofun
    · nofun
  | cons c text =>
    have hcolon : c = ':' := by
      have hc := head?_dropWhile (fun x => decide (x ≠ ':')) hostport c (by rw [hd]; rfl)
      simpa using hc
    subst hcolon
    rw [hd] at h hcut
    obtain ⟨htext, port, hport⟩ : text ≠ [] ∧ ∃ port, parsePort text 0 = some port := by
      by_cases h1 : hostport = []
      · rw [if_pos h1] at h
        cases h
      · rw [if_neg h1] at h
        by_cases h2 : text = []
        · dsimp only at h
          rw [if_pos h2] at h
          cases h
        · dsimp only at h
          rw [if_neg h2] at h
          obtain ⟨port, hport, -⟩ := Option.map_eq_some_iff.mp h
          exact ⟨h2, port, hport⟩
    refine ⟨⟨secure, hostport.takeWhile (· ≠ ':'), some text, rest.dropWhile (· ≠ '/')⟩, rfl, ?_, ⟨hhost, ?_, ?_, hpath⟩⟩
    · show hostport.takeWhile _ ++ ':' :: text ++ rest.dropWhile _ = rest
      rw [hcut, hrest]
    · rintro _ ⟨⟩
      exact htext
    · rintro _ ⟨⟩
      exact ((parsePort_iff (by decide)).mp hport).1

theorem parseRest_iff {secure : Bool} {rest : List Char} {u : ParsedUrl} :
    parseRest secure rest = some u ↔
      ∃ t : UrlText, t.secure = secure ∧ t.hostport ++ t.path = rest ∧ t.Accepted ∧ t.url = u := by
  constructor
  · intro h
    obtain ⟨t, rfl, rfl, ht⟩ := exists_text_of_parseRest h
    rw [parseRest_text ht] at h
    by_cases hne : t.hostport = []
    · rw [if_pos hne] at h
      cases h
    rw [if_neg hne] at h
    cases hp : t.port with
    | none =>
      rw [hp] at h
      have hhost : t.host ≠ [] := by
        intro hc
        refine hne ?_
        unfold UrlText.hostport
        rw [hc, hp]
        rfl
      exact ⟨t, rfl, rfl, ⟨ht, fun _ => hhost, fun text htext => absurd (hp.symm.trans htext) nofun⟩, Option.some.inj h⟩
    | some text =>
      rw [hp] at h
      obtain ⟨port, hport, hu⟩ := Option.map_eq_some_iff.mp h
      obtain ⟨-, hval, h1, h2⟩ := (parsePort_iff (by decide)).mp hport
      refine ⟨t, rfl, rfl, ⟨ht, fun hc => absurd (hp.symm.trans hc) nofun, fun text' ht' => ?_⟩, ?_⟩
      · obtain rfl : text = text' := Option.some.inj (hp.symm.trans ht')
        rw [← hval] at h1 h2
        exact ⟨h1, h2⟩
      · rw [← hu]
        unfold UrlText.url
        rw [hp]
        exact congrArg (fun port => ParsedUrl.mk _ _ port _) hval
  · rintro ⟨t, rfl, rfl, ht, rfl⟩
    have hne : t.hostport ≠ [] := by
      intro hc
      obtain ⟨hhost, hport⟩ := List.append_eq_nil_iff.mp hc
      refine ht.host_ne ?_ hhost
      cases hp : t.port with
      | none => rfl
      | some text =>
        rw [hp] at hport
        cases hport
    rw [parseRest_text ht.toDelimited, if_neg hne]
    cases hp : t.port with
    | none => rfl
    | some text =>
      obtain ⟨h1, h2⟩ := ht.port_range text hp
      have hport := (parsePort_iff (n := 0) (by decide)).mpr ⟨ht.port_digits text hp, rfl, h1, h2⟩
      dsimp only
      rw [hport]
      unfold UrlText.url
      rw [hp]
      rfl

theorem parseUrl_eq_ok {url : List Char} {u : ParsedUrl} : parseUrl url = .ok u ↔
    (if "ws://".toList <+: url then parseRest false (url.drop 5)
      else if "wss://".toList <+: url then parseRest true (url.drop 6)
      else none) = some u := by
  unfold parseUrl
  dsimp only
  split
  · next v hv => rw [hv, Except.ok.injEq, Option.some.injEq]
  · next hv =>
    rw [hv]
    exact iff_of_false nofun nofun

/-- A URL with a scheme is accepted as what follows the scheme is. -/
theorem parseRest_scheme (secure : Bool) (rest : List Char) (u : ParsedUrl) :
    parseRest secure rest = some u ↔ ∃ t : UrlText, t.Accepted ∧
      t.text = (if secure then "wss://".toList else "ws://".toList) ++ rest ∧ t.url = u := by
  rw [parseRest_iff]
  constructor
  · rintro ⟨t, rfl, rfl, ht, hu⟩
    exact ⟨t, ht, rfl, hu⟩
  · rintro ⟨t, ht, htext, hu⟩
    obtain rfl : t.secure = secure := UrlText.scheme_inj htext
    exact ⟨t, rfl, List.append_cancel_left htext, ht, hu⟩

/-- **What the parser accepts**, and what it makes of it. -/
theorem parseUrl_iff {url : List Char} {u : ParsedUrl} :
    parseUrl url = .ok u ↔ ∃ t : UrlText, t.Accepted ∧ t.text = url ∧ t.url = u := by
  rw [parseUrl_eq_ok]
  by_cases hws : "ws://".toList <+: url
  · obtain ⟨rest, rfl⟩ := hws
    rw [if_pos ⟨rest, rfl⟩]
    exact parseRest_scheme false rest u
  · rw [if_neg hws]
    by_cases hwss : "wss://".toList <+: url
    · obtain ⟨rest, rfl⟩ := hwss
      rw [if_pos ⟨rest, rfl⟩]
      exact parseRest_scheme true rest u
    · rw [if_neg hwss]
      refine iff_of_false nofun ?_
      rintro ⟨t, -, rfl, -⟩
      unfold UrlText.text at hws hwss
      cases hs : t.secure with
      | true =>
        rw [hs, if_pos rfl] at hwss
        exact hwss (List.prefix_append _ _)
      | false =>
        rw [hs] at hws
        exact hws (List.prefix_append _ _)

/-- The parser is right about a URL: it accepts what the grammar has, and nothing else. -/
def RightAbout (url : List Char) : Prop :=
  ∀ u, parseUrl url = .ok u ↔ ∃ t : UrlText, t.Grammatical ∧ t.text = url ∧ t.url = u

/-- **The parser accepts exactly its grammar**, but for a port after no host, and for the last port. -/
theorem parseUrl_right_iff (url : List Char) :
    RightAbout url ↔ ∀ t : UrlText, t.Delimited → t.text = url → ∀ text ∈ t.port,
      (t.host = [] → ¬ (1 ≤ portValue text ∧ portValue text ≤ 65534)) ∧ (t.host ≠ [] → portValue text ≠ 65535) := by
  constructor
  · intro h t ht htext text hp
    have hport : ∀ text' ∈ t.port, text' = text := fun text' ht' => Option.some.inj (ht'.symm.trans hp)
    refine ⟨fun hhost hrange => ?_, fun hhost hlast => ?_⟩
    · -- accepted, and not in the grammar
      have hacc : t.Accepted :=
        ⟨ht, fun hc => absurd (hc.symm.trans hp) nofun, fun text' ht' => by rw [hport text' ht']; omega⟩
      obtain ⟨t', hg, htext', -⟩ := (h t.url).mp (parseUrl_iff.mpr ⟨t, hacc, htext, rfl⟩)
      obtain rfl := ht.ext hg.toDelimited (htext.trans htext'.symm)
      exact hg.host_ne hhost
    · -- in the grammar, and not accepted
      have hg : t.Grammatical := ⟨ht, hhost, fun text' ht' => by rw [hport text' ht']; omega⟩
      obtain ⟨t', hacc, htext', -⟩ := parseUrl_iff.mp ((h t.url).mpr ⟨t, hg, htext, rfl⟩)
      obtain rfl := ht.ext hacc.toDelimited (htext.trans htext'.symm)
      have hlt := (hacc.port_range text hp).2
      omega
  · intro h u
    rw [parseUrl_iff]
    constructor
    · rintro ⟨t, ht, htext, hu⟩
      refine ⟨t, ⟨ht.toDelimited, ?_, fun text hp => ?_⟩, htext, hu⟩
      · cases hp : t.port with
        | none => exact ht.host_ne hp
        | some text =>
          intro hc
          have hrange := ht.port_range text hp
          exact (h t ht.toDelimited htext text hp).1 hc (by omega)
      · have hrange := ht.port_range text hp
        omega
    · rintro ⟨t, ht, htext, hu⟩
      refine ⟨t, ⟨ht.toDelimited, fun _ => ht.host_ne, fun text hp => ?_⟩, htext, hu⟩
      have hrange := ht.port_range text hp
      have hne := (h t ht.toDelimited htext text hp).2 ht.host_ne
      omega

/-- A port without a host is accepted, and the last port is not. -/
theorem port_slips :
    parseUrl "ws://:80".toList = .ok ⟨false, [], 80, ['/']⟩ ∧ ¬ RightAbout "ws://:80".toList ∧
    (⟨true, "a".toList, some "65535".toList, []⟩ : UrlText).Grammatical ∧
    (⟨true, "a".toList, some "65535".toList, []⟩ : UrlText).text = "wss://a:65535".toList ∧
    parseUrl "wss://a:65535".toList = .error .invalidUrl := by
  have hlast : (⟨true, "a".toList, some "65535".toList, []⟩ : UrlText).Grammatical :=
    ⟨⟨by simp, by simp, by simp, by simp⟩, by decide, by decide⟩
  have hfirst : parseUrl "ws://:80".toList = .ok ⟨false, [], 80, ['/']⟩ := by decide
  refine ⟨hfirst, fun h => ?_, hlast, by decide, by decide⟩
  obtain ⟨t, hg, htext, -⟩ := (h _).mp hfirst
  have hempty : (⟨false, [], some "80".toList, []⟩ : UrlText).Delimited := ⟨by simp, by simp, by simp, by simp⟩
  obtain rfl := hempty.ext hg.toDelimited htext.symm
  exact hg.host_ne rfl

end Wirekrak.Transport
