import XconnCpp.Library.Search
import XconnCpp.Values

namespace XconnCpp.Urls

open Library.Search Values

inductive StdException
  | outOfRange
  | invalidArgument (what : Str)
  deriving DecidableEq

abbrev Size := UInt64

def npos : Size := -1

abbrev StdString := {s : Str // s.length < npos.toNat}

def find (s pattern : Str) : Size := (search pattern s).elim npos UInt64.ofNat

def rfind (s pattern : Str) (pos : Size) : Size :=
  ((List.range (min pos.toNat s.length + 1)).reverse.find? fun i => pattern.isPrefixOf (s.drop i)).elim
    npos UInt64.ofNat

def substr (s : Str) (pos count : Size) : Except StdException Str :=
  if s.length < pos.toNat then .error .outOfRange else .ok ((s.drop pos.toNat).take count.toNat)

structure UrlParser where
  scheme : Str
  host : Str
  port : Str
  deriving DecidableEq

def parseAddress (scheme rest : Str) : Except StdException UrlParser := do
  let colonPos := find rest (ascii ":")
  let slashPos := find rest (ascii "/")
  let parts ←
    if colonPos ≠ npos ∧ (slashPos = npos ∨ colonPos < slashPos) then do
      let host ← substr rest 0 colonPos
      -- `slashPos` may be `npos`; the difference is modulo `2 ^ 64`
      let port ← substr rest (colonPos + 1) (slashPos - colonPos - 1)
      pure (UrlParser.mk scheme host port)
    else do
      let host ← substr rest 0 slashPos
      pure (UrlParser.mk scheme host [])
  if slashPos ≠ npos then
    let host ← substr rest 0 (min colonPos slashPos)
    return { parts with host }
  return parts

def parseUrl (url : Str) : Except StdException UrlParser := do
  let schemeEnd := find url (ascii "://")
  if schemeEnd = npos then return ⟨[], [], []⟩
  let scheme ← substr url 0 schemeEnd
  let rest ← substr url (schemeEnd + 3) npos
  if rfind scheme (ascii "unix") 0 = 0 then return ⟨scheme, rest, []⟩
  parseAddress scheme rest

inductive TransportKind
  | tcp
  | unix
  deriving DecidableEq

def createTransport (url : UrlParser) : Except StdException TransportKind :=
  if url.scheme = ascii "tcp" ∨ url.scheme = ascii "rs" then .ok .tcp
  else if url.scheme = ascii "unix" ∨ url.scheme = ascii "unix+rs" then .ok .unix
  else .error (.invalidArgument (ascii "Unknown transport scheme: " ++ url.scheme))

section Searches

variable {s pattern a b : Str} {n : ℕ}

theorem toNat_ofNat_of_lt (hn : n < npos.toNat) : (UInt64.ofNat n).toNat = n :=
  UInt64.toNat_ofNat_of_lt (hn.trans (by decide))

theorem ofNat_ne_npos (hn : n < npos.toNat) : UInt64.ofNat n ≠ npos := by
  intro he
  have hnat := toNat_ofNat_of_lt hn
  rw [he] at hnat
  exact hn.ne' hnat

theorem toNat_add_one (hn : n < npos.toNat) : (UInt64.ofNat n + 1).toNat = n + 1 := by
  have hnpos : npos.toNat = 2 ^ 64 - 1 := rfl
  rw [UInt64.toNat_add, toNat_ofNat_of_lt hn, UInt64.toNat_one, Nat.mod_eq_of_lt (by omega)]

theorem toNat_sub_sub_one {m : Size} (hn : n < m.toNat) : (m - UInt64.ofNat n - 1).toNat = m.toNat - n - 1 := by
  have hm : m.toNat < 2 ^ 64 := m.toNat_lt
  have hnat : (UInt64.ofNat n).toNat = n := UInt64.toNat_ofNat_of_lt (hn.trans hm)
  have hdiff : (m - UInt64.ofNat n).toNat = m.toNat - n := by
    rw [UInt64.toNat_sub_of_le _ _ (UInt64.le_iff_toNat_le.mpr (by omega)), hnat]
  have hone : (1 : Size) ≤ m - UInt64.ofNat n := by
    rw [UInt64.le_iff_toNat_le, hdiff, UInt64.toNat_one]
    omega
  rw [UInt64.toNat_sub_of_le _ _ hone, hdiff, UInt64.toNat_one]

theorem find_of_not_infix (h : ¬ pattern <:+: s) : find s pattern = npos := by
  rw [find, search_eq_none_iff.mpr h]
  rfl

theorem find_of_firstSplit (h : FirstSplit pattern s a b) : find s pattern = .ofNat a.length := by
  rw [find, search_of_firstSplit h]
  rfl

theorem find_of_not_mem {x : UInt8} (hx : x ∉ s) : find s [x] = npos :=
  find_of_not_infix (mt (List.singleton_infix_iff x s).mp hx)

theorem find_of_first {x : UInt8} (hx : x ∉ a) : find (a ++ x :: b) [x] = .ofNat a.length := by
  apply find_of_firstSplit (b := b)
  simpa using firstSplit_singleton (b := b) hx

theorem length_le_find {x : UInt8} (hx : x ∉ a) (hs : (a ++ b).length < npos.toNat) :
    a.length ≤ (find (a ++ b) [x]).toNat := by
  have hle : a.length ≤ (a ++ b).length := by simp
  by_cases hb : x ∈ b
  · obtain ⟨b₁, b₂, rfl, hx'⟩ := List.eq_append_cons_of_mem hb
    have hpos := find_of_first (x := x) (a := a ++ b₁) (b := b₂) (by simp [hx, hx'])
    simp only [List.append_assoc] at hpos
    rw [hpos, toNat_ofNat_of_lt (lt_of_le_of_lt (by simp) hs)]
    simp
  · rw [find_of_not_mem (by simp [hx, hb])]
    omega

theorem rfind_zero_iff : rfind s pattern 0 = 0 ↔ pattern <+: s := by
  by_cases h : pattern <+: s
  · simp [rfind, h]
  · simp [rfind, h, npos]

theorem substr_of_append {pos count : Size} {c : Str} (hs : s = a ++ b ++ c) (hpos : pos.toNat = a.length)
    (hcount : count.toNat = b.length ∨ c = [] ∧ b.length ≤ count.toNat) : substr s pos count = .ok b := by
  subst hs
  rw [substr, if_neg (by simp [hpos]), hpos, List.append_assoc, List.drop_left]
  rcases hcount with hcount | ⟨rfl, hcount⟩
  · rw [hcount, List.take_left]
  · rw [List.append_nil, List.take_of_length_le hcount]

end Searches

section Grammar

abbrev separator : Str := ascii "://"

abbrev colon : UInt8 := 58

abbrev slash : UInt8 := 47

def InHost (b : UInt8) : Prop := b ≠ colon ∧ b ≠ slash

instance : DecidablePred InHost := fun _ => inferInstanceAs (Decidable (_ ∧ _))

def InPort (b : UInt8) : Prop := b ≠ slash

instance : DecidablePred InPort := fun _ => inferInstanceAs (Decidable (_ ≠ _))

def hostPart (rest : Str) : Str := rest.takeWhile InHost

def portPart (rest : Str) : Str :=
  match rest.dropWhile InHost with
  | b :: port => if b = colon then port.takeWhile InPort else []
  | [] => []

/-- What a URL says: the scheme ends at the first separator, a host at the first colon or slash, and a
port at the first slash. -/
inductive Parses (url : Str) : UrlParser → Prop
  | noScheme (hurl : ¬ separator <:+: url) : Parses url ⟨[], [], []⟩
  | unix {scheme rest : Str} (hurl : FirstSplit separator url scheme rest)
      (hunix : ascii "unix" <+: scheme) : Parses url ⟨scheme, rest, []⟩
  | address {scheme rest : Str} (hurl : FirstSplit separator url scheme rest)
      (hunix : ¬ ascii "unix" <+: scheme) : Parses url ⟨scheme, hostPart rest, portPart rest⟩

def IsPath (path : Str) : Prop := path = [] ∨ ∃ t, path = slash :: t

inductive Address : Str → Str → Str → Prop
  | bare {host path : Str} (hhost : ∀ b ∈ host, InHost b) (hpath : IsPath path) :
      Address (host ++ path) host []
  | withPort {host port path : Str} (hhost : ∀ b ∈ host, InHost b) (hport : ∀ b ∈ port, InPort b)
      (hpath : IsPath path) : Address (host ++ colon :: (port ++ path)) host port

variable {rest host port path scheme : Str}

theorem IsPath.takeWhile (h : IsPath path) {f : UInt8 → Bool} (hf : f slash = false) :
    path.takeWhile f = [] := by
  rcases h with rfl | ⟨t, rfl⟩
  · rfl
  · simp [hf]

theorem Address.parts (h : Address rest host port) : hostPart rest = host ∧ portPart rest = port := by
  cases h with
  | @bare _ path hhost hpath =>
    have hhost' : ∀ b ∈ host, decide (InHost b) := by simpa using hhost
    rw [hostPart, portPart, List.takeWhile_append_of_pos hhost', List.dropWhile_append_of_pos hhost',
      hpath.takeWhile (by decide)]
    rcases hpath with rfl | ⟨t, rfl⟩
    · simp
    · rw [List.dropWhile_cons_of_neg (by decide)]
      exact ⟨List.append_nil host, if_neg (by decide)⟩
  | @withPort _ _ path hhost hport hpath =>
    have hhost' : ∀ b ∈ host, decide (InHost b) := by simpa using hhost
    have hport' : ∀ b ∈ port, decide (InPort b) := by simpa using hport
    rw [hostPart, portPart, List.takeWhile_append_of_pos hhost', List.dropWhile_append_of_pos hhost',
      List.takeWhile_cons_of_neg (by decide), List.dropWhile_cons_of_neg (by decide)]
    simp [List.takeWhile_append_of_pos hport', hpath.takeWhile (f := fun b => decide (InPort b)) (by decide)]

theorem exists_split (f : UInt8 → Bool) (s : Str) :
    ∃ a b, s = a ++ b ∧ (∀ x ∈ a, f x) ∧ (b = [] ∨ ∃ x t, b = x :: t ∧ f x = false) := by
  refine ⟨s.takeWhile f, s.dropWhile f, List.takeWhile_append_dropWhile.symm, ?_, ?_⟩
  · exact fun x hx => List.mem_takeWhile_imp hx
  · have hhead := List.head?_dropWhile_not f s
    cases hs : s.dropWhile f with
    | nil => exact .inl rfl
    | cons x t => exact .inr ⟨x, t, rfl, by simpa [hs] using hhead⟩

theorem exists_address (rest : Str) : ∃ host port, Address rest host port := by
  obtain ⟨host, tail, rfl, hhost, htail⟩ := exists_split (fun b => decide (InHost b)) rest
  simp only [decide_eq_true_eq] at hhost
  rcases htail with rfl | ⟨b, t, rfl, hb⟩
  · exact ⟨host, [], .bare hhost (.inl rfl)⟩
  · obtain rfl | rfl : b = colon ∨ b = slash := by
      rw [decide_eq_false_iff_not, InHost, not_and_or, not_not, not_not] at hb
      exact hb
    · obtain ⟨port, path, rfl, hport, hpath⟩ := exists_split (fun b => decide (InPort b)) t
      simp only [decide_eq_true_eq] at hport
      refine ⟨host, port, .withPort hhost hport ?_⟩
      rcases hpath with rfl | ⟨x, t, rfl, hx⟩
      · exact .inl rfl
      · obtain rfl : x = slash := by
          rw [decide_eq_false_iff_not, InPort, not_not] at hx
          exact hx
        exact .inr ⟨t, rfl⟩
    · exact ⟨host, [], .bare hhost (.inr ⟨t, rfl⟩)⟩

theorem address_parts (rest : Str) : Address rest (hostPart rest) (portPart rest) := by
  obtain ⟨host, port, h⟩ := exists_address rest
  obtain ⟨rfl, rfl⟩ := h.parts
  exact h

theorem parseAddress_of_colon_first {colonPos slashPos : Size} (hcolon : find rest (ascii ":") = colonPos)
    (hslash : find rest (ascii "/") = slashPos) (hfirst : colonPos < slashPos)
    (hhost : substr rest 0 colonPos = .ok host)
    (hport : substr rest (colonPos + 1) (slashPos - colonPos - 1) = .ok port) :
    parseAddress scheme rest = .ok ⟨scheme, host, port⟩ := by
  have hne : colonPos ≠ npos := by
    rintro rfl
    have hlt : 18446744073709551615 < slashPos.toNat := UInt64.lt_iff_toNat_lt.mp hfirst
    exact absurd slashPos.toNat_lt (not_lt.mpr hlt)
  have hmin : min colonPos slashPos = colonPos := if_pos (UInt64.le_of_lt hfirst)
  rw [parseAddress, hcolon, hslash, if_pos ⟨hne, .inr hfirst⟩, hhost, hport, hmin, hhost]
  by_cases hend : slashPos = npos
  · simp only [hend]
    rfl
  · simp only [ne_eq, hend, not_false_eq_true, if_true]
    rfl

theorem parseAddress_of_slash_first {colonPos slashPos : Size} (hcolon : find rest (ascii ":") = colonPos)
    (hslash : find rest (ascii "/") = slashPos) (hfirst : slashPos ≤ colonPos)
    (hhost : substr rest 0 slashPos = .ok host) :
    parseAddress scheme rest = .ok ⟨scheme, host, []⟩ := by
  have hmin : min colonPos slashPos = slashPos := by
    by_cases hle : colonPos ≤ slashPos
    · exact (if_pos hle).trans (UInt64.le_antisymm hle hfirst)
    · exact if_neg hle
  have hcond : ¬ (colonPos ≠ npos ∧ (slashPos = npos ∨ colonPos < slashPos)) := by
    rintro ⟨hne, rfl | hlt⟩
    · apply hne
      apply UInt64.le_antisymm ?_ hfirst
      exact UInt64.le_iff_toNat_le.mpr (Nat.le_of_lt_succ colonPos.toNat_lt)
    · exact UInt64.lt_irrefl _ (UInt64.lt_of_lt_of_le hlt hfirst)
  rw [parseAddress, hcolon, hslash, if_neg hcond, hhost, hmin, hhost]
  by_cases hend : slashPos = npos
  · simp only [hend]
    rfl
  · simp only [ne_eq, hend, not_false_eq_true, if_true]
    rfl

theorem not_mem_host (hhost : ∀ b ∈ host, InHost b) : colon ∉ host ∧ slash ∉ host :=
  ⟨fun hmem => (hhost colon hmem).1 rfl, fun hmem => (hhost slash hmem).2 rfl⟩

theorem parseAddress_bare (hhost : ∀ b ∈ host, InHost b) (hpath : IsPath path)
    (hrest : (host ++ path).length < npos.toNat) :
    parseAddress scheme (host ++ path) = .ok ⟨scheme, host, []⟩ := by
  obtain ⟨hcolon, hslash⟩ := not_mem_host hhost
  have hlength : host.length < npos.toNat := lt_of_le_of_lt (by simp) hrest
  rcases hpath with rfl | ⟨t, rfl⟩
  · rw [List.append_nil]
    apply parseAddress_of_slash_first (find_of_not_mem hcolon) (find_of_not_mem hslash)
    · exact UInt64.le_refl npos
    · exact substr_of_append (a := []) (c := []) (by simp) rfl (.inr ⟨rfl, hlength.le⟩)
  · have htoNat := toNat_ofNat_of_lt hlength
    apply parseAddress_of_slash_first rfl (find_of_first hslash)
    · rw [UInt64.le_iff_toNat_le, htoNat]
      exact length_le_find hcolon hrest
    · exact substr_of_append (a := []) (c := slash :: t) rfl rfl (.inl htoNat)

theorem parseAddress_port {tail : Str} {slashPos : Size} (hhost : ∀ b ∈ host, InHost b)
    (hlength : host.length < npos.toNat)
    (hslash : find (host ++ colon :: (port ++ tail)) (ascii "/") = slashPos)
    (hfirst : host.length < slashPos.toNat)
    (hcount : slashPos.toNat - host.length - 1 = port.length ∨
      tail = [] ∧ port.length ≤ slashPos.toNat - host.length - 1) :
    parseAddress scheme (host ++ colon :: (port ++ tail)) = .ok ⟨scheme, host, port⟩ := by
  have htoNat := toNat_ofNat_of_lt hlength
  have hpos : (UInt64.ofNat host.length + 1).toNat = (host ++ [colon]).length := by
    simpa using toNat_add_one hlength
  have hcolon := find_of_first (b := port ++ tail) (not_mem_host hhost).1
  apply parseAddress_of_colon_first hcolon hslash
  · rw [UInt64.lt_iff_toNat_lt, htoNat]
    exact hfirst
  · exact substr_of_append (a := []) rfl rfl (.inl htoNat)
  · apply substr_of_append (a := host ++ [colon]) (c := tail) (by simp) hpos
    rwa [toNat_sub_sub_one hfirst]

theorem parseAddress_port_end (hhost : ∀ b ∈ host, InHost b) (hport : ∀ b ∈ port, InPort b)
    (hrest : (host ++ colon :: port).length < npos.toNat) :
    parseAddress scheme (host ++ colon :: (port ++ [])) = .ok ⟨scheme, host, port⟩ := by
  have hport' : slash ∉ port := fun hmem => hport slash hmem rfl
  have hnone : find (host ++ colon :: (port ++ [])) [slash] = npos := by
    apply find_of_not_mem
    simp [(not_mem_host hhost).2, hport', show slash ≠ colon by decide]
  simp only [List.length_append, List.length_cons] at hrest
  have hlength : host.length < npos.toNat := by omega
  apply parseAddress_port hhost hlength hnone hlength
  exact .inr ⟨rfl, by omega⟩

theorem parseAddress_port_path {t : Str} (hhost : ∀ b ∈ host, InHost b) (hport : ∀ b ∈ port, InPort b)
    (hrest : (host ++ colon :: port).length < npos.toNat) :
    parseAddress scheme (host ++ colon :: (port ++ slash :: t)) = .ok ⟨scheme, host, port⟩ := by
  have hport' : slash ∉ port := fun hmem => hport slash hmem rfl
  have hsome : find (host ++ colon :: (port ++ slash :: t)) [slash] =
      .ofNat (host ++ colon :: port).length := by
    have hfound := find_of_first (x := slash) (a := host ++ colon :: port) (b := t)
      (by simp [(not_mem_host hhost).2, hport', show slash ≠ colon by decide])
    simpa using hfound
  have htoNat := toNat_ofNat_of_lt hrest
  simp only [List.length_append, List.length_cons] at hrest htoNat hsome
  have hlength : host.length < npos.toNat := by omega
  apply parseAddress_port hhost hlength hsome
  · rw [htoNat]
    omega
  · rw [htoNat]
    exact .inl (by omega)

theorem parseAddress_of_address (h : Address rest host port) (hrest : rest.length < npos.toNat) :
    parseAddress scheme rest = .ok ⟨scheme, host, port⟩ := by
  cases h with
  | bare hhost hpath => exact parseAddress_bare hhost hpath hrest
  | @withPort _ _ path hhost hport hpath =>
    have hshort : (host ++ colon :: port).length < npos.toNat := lt_of_le_of_lt (by simp) hrest
    rcases hpath with rfl | ⟨t, rfl⟩
    · exact parseAddress_port_end hhost hport hshort
    · exact parseAddress_port_path hhost hport hshort

theorem parseUrl_of_firstSplit {url : Str} (hurl : FirstSplit separator url scheme rest)
    (hlength : url.length < npos.toNat) :
    parseUrl url = if ascii "unix" <+: scheme then .ok ⟨scheme, rest, []⟩ else parseAddress scheme rest := by
  have hsplit : url.length = scheme.length + 3 + rest.length := by
    rw [hurl.split, List.length_append, List.length_append]
    rfl
  have hscheme : scheme.length < npos.toNat := by omega
  have hend : (UInt64.ofNat scheme.length + 3).toNat = (scheme ++ separator).length := by
    have hnpos : npos.toNat = 2 ^ 64 - 1 := rfl
    rw [UInt64.toNat_add, toNat_ofNat_of_lt hscheme, List.length_append]
    exact Nat.mod_eq_of_lt (show scheme.length + 3 < 2 ^ 64 by omega)
  have hfirst : substr url 0 (.ofNat scheme.length) = .ok scheme :=
    substr_of_append (a := []) (c := separator ++ rest) (by simp [hurl.split]) rfl
      (.inl (toNat_ofNat_of_lt hscheme))
  have hrest : substr url (.ofNat scheme.length + 3) npos = .ok rest :=
    substr_of_append (c := []) (by simpa using hurl.split) hend (.inr ⟨rfl, by omega⟩)
  simp only [parseUrl, find_of_firstSplit hurl, if_neg (ofNat_ne_npos hscheme)]
  rw [hfirst, hrest]
  by_cases hunix : ascii "unix" <+: scheme
  · rw [if_pos hunix]
    exact if_pos (rfind_zero_iff.mpr hunix)
  · rw [if_neg hunix]
    exact if_neg (mt rfind_zero_iff.mp hunix)

theorem parseUrl_of_parses {url : Str} {parts : UrlParser} (h : Parses url parts)
    (hlength : url.length < npos.toNat) : parseUrl url = .ok parts := by
  cases h with
  | noScheme hurl =>
    simp only [parseUrl, find_of_not_infix hurl]
    rfl
  | unix hurl hunix => rw [parseUrl_of_firstSplit hurl hlength, if_pos hunix]
  | @address scheme rest hurl hunix =>
    rw [parseUrl_of_firstSplit hurl hlength, if_neg hunix]
    apply parseAddress_of_address (address_parts rest)
    have hsplit := congrArg List.length hurl.split
    simp only [List.length_append] at hsplit
    omega

theorem exists_parses (url : Str) : ∃ parts, Parses url parts := by
  by_cases hurl : separator <:+: url
  · obtain ⟨scheme, rest, hurl⟩ := exists_firstSplit hurl
    by_cases hunix : ascii "unix" <+: scheme
    · exact ⟨_, .unix hurl hunix⟩
    · exact ⟨_, .address hurl hunix⟩
  · exact ⟨_, .noScheme hurl⟩

theorem parses_of_address {url : Str} (hurl : url = scheme ++ separator ++ rest)
    (hscheme : ¬ separator <:+: scheme) (hunix : ¬ ascii "unix" <+: scheme) (h : Address rest host port) :
    Parses url ⟨scheme, host, port⟩ := by
  obtain ⟨rfl, rfl⟩ := h.parts
  have hborderless : Borderless separator := by decide
  exact .address (hurl ▸ firstSplit_of_borderless hborderless hscheme) hunix

/-- Every URL is parsed, and as the grammar says; so what is put together from a scheme, a host and a
port is taken apart again. -/
theorem parseUrl_computes_grammar :
    (∀ url : StdString, (∃ parts, parseUrl url = .ok parts) ∧
      ∀ parts, parseUrl url = .ok parts ↔ Parses url parts) ∧
    ∀ (scheme host port path : Str) (url : StdString), ¬ separator <:+: scheme →
      ¬ ascii "unix" <+: scheme → (∀ b ∈ host, InHost b) → (∀ b ∈ port, InPort b) → IsPath path →
        (url.1 = scheme ++ separator ++ host ++ [colon] ++ port ++ path →
          parseUrl url = .ok ⟨scheme, host, port⟩) ∧
        (url.1 = scheme ++ separator ++ host ++ path → parseUrl url = .ok ⟨scheme, host, []⟩) := by
  constructor
  · rintro ⟨url, hlength⟩
    obtain ⟨parts, hparts⟩ := exists_parses url
    have hparse := parseUrl_of_parses hparts hlength
    refine ⟨⟨parts, hparse⟩, fun parts' => ⟨fun h => ?_, fun h => parseUrl_of_parses h hlength⟩⟩
    obtain rfl : parts = parts' := Except.ok.inj (hparse.symm.trans h)
    exact hparts
  · rintro scheme host port path ⟨url, hlength⟩ hscheme hunix hhost hport hpath
    refine ⟨fun hurl => ?_, fun hurl => ?_⟩
    · apply parseUrl_of_parses _ hlength
      exact parses_of_address (by simpa using hurl) hscheme hunix (.withPort hhost hport hpath)
    · apply parseUrl_of_parses _ hlength
      exact parses_of_address (by simpa using hurl) hscheme hunix (.bare hhost hpath)

theorem parseUrl_computes_grammar_tcp :
    parseUrl (ascii "tcp://localhost:8080/ws") = .ok ⟨ascii "tcp", ascii "localhost", ascii "8080"⟩ := by
  have hhost : (ascii "localhost").all fun b => decide (InHost b) := by decide
  have hport : (ascii "8080").all fun b => decide (InPort b) := by decide
  exact (parseUrl_computes_grammar.2 (ascii "tcp") (ascii "localhost") (ascii "8080") (ascii "/ws")
    ⟨ascii "tcp://localhost:8080/ws", by decide⟩ (by decide) (by decide) (by simpa using hhost)
    (by simpa using hport) (.inr ⟨ascii "ws", rfl⟩)).1 rfl

end Grammar

end XconnCpp.Urls
