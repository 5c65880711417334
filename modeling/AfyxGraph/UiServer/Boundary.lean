import AfyxGraph.UiServer.Security

/-! # What the checks accept

The host check accepts the three names with the port or without, and besides them a name in
brackets. The origin check accepts pages of this host and port, and besides them those of the
default ports.
-/

namespace AfyxGraph.UiServer

open AfyxGraph.Core

/-! ## Letter case -/

section Case

variable {c d : Char} {t : Text}

/-- A property of all ASCII characters, checked one by one. -/
theorem ascii_forall {P : Char → Prop} (h : ∀ n < 128, P (Char.ofNat n)) (hc : c.toNat < 128) :
    P c := by
  have hn := h c.toNat hc
  rwa [Char.ofNat_toNat] at hn

theorem toLower_of_not_ascii (hc : ¬ c.toNat < 128) : c.toLower = c := by
  have hnot : ¬ (c.val ≥ 'A'.val ∧ c.val ≤ 'Z'.val) := by
    rintro ⟨-, hle⟩
    have hle' : c.toNat ≤ 90 := UInt32.le_iff_toNat_le.mp hle
    omega
  exact dif_neg hnot

theorem toLower_ascii_iff : c.toLower.toNat < 128 ↔ c.toNat < 128 := by
  by_cases hc : c.toNat < 128
  · have hall : ∀ n < 128, (Char.ofNat n).toLower.toNat < 128 := by decide
    have hlower := ascii_forall (P := fun c => c.toLower.toNat < 128) hall hc
    simp only [hc, hlower]
  · rw [toLower_of_not_ascii hc]

/-- The marks that the header is cut at are no letters. -/
theorem toLower_eq_mark (hd : d = ':' ∨ d = '[' ∨ d = ']') : c.toLower = d ↔ c = d := by
  by_cases hc : c.toNat < 128
  · have hall : ∀ n < 128, ((Char.ofNat n).toLower = ':' ↔ Char.ofNat n = ':') ∧
        ((Char.ofNat n).toLower = '[' ↔ Char.ofNat n = '[') ∧
        ((Char.ofNat n).toLower = ']' ↔ Char.ofNat n = ']') := by decide
    obtain ⟨hcolon, hopen, hclose⟩ := ascii_forall (P := fun c => (c.toLower = ':' ↔ c = ':') ∧
      (c.toLower = '[' ↔ c = '[') ∧ (c.toLower = ']' ↔ c = ']')) hall hc
    rcases hd with rfl | rfl | rfl
    · exact hcolon
    · exact hopen
    · exact hclose
  · rw [toLower_of_not_ascii hc]

theorem mark_mem_asciiLower (hd : d = ':' ∨ d = '[' ∨ d = ']') : d ∈ asciiLower t ↔ d ∈ t := by
  unfold asciiLower
  rw [List.mem_map]
  constructor
  · rintro ⟨c, hc, heq⟩
    exact (toLower_eq_mark hd).mp heq ▸ hc
  · intro hmem
    exact ⟨d, hmem, (toLower_eq_mark hd).mpr rfl⟩

theorem ascii_of_asciiLower (h : ∀ c ∈ asciiLower t, c.toNat < 128) : ∀ c ∈ t, c.toNat < 128 := by
  intro c hc
  exact toLower_ascii_iff.mp (h _ (List.mem_map_of_mem hc))

theorem loopback_ascii {name : Text} (h : name ∈ LOOPBACK_HOSTNAMES) :
    ∀ c ∈ name, c.toNat < 128 ∧ c ≠ 'k' := by
  have hall : LOOPBACK_HOSTNAMES.all (·.all fun c => c.toNat < 128 && c ≠ 'k') = true := by
    decide
  have hname := List.all_eq_true.mp hall name h
  intro c hc
  simpa using List.all_eq_true.mp hname c hc

/-- On the names of the list the case mapping is the one of ASCII. -/
theorem toLowerCase_mem (case : CaseMapping) (t : Text) :
    LOOPBACK_HOSTNAMES.contains (case.toLowerCase t) = true ↔
      asciiLower t ∈ LOOPBACK_HOSTNAMES := by
  rw [List.contains_iff_mem]
  constructor
  · intro h
    have hascii := case.other t (loopback_ascii h)
    exact case.ascii t hascii ▸ h
  · intro h
    have hascii := ascii_of_asciiLower fun c hc => (loopback_ascii h c hc).1
    exact (case.ascii t hascii).symm ▸ h

end Case

/-! ## Ports -/

variable {case : CaseMapping} {port : Port}

theorem parsePortSuffix_iff (suffix : Text) :
    (∃ p, parsePortSuffix suffix = some p ∧ p.all (· = port.val) = true) ↔ PortIs port suffix := by
  have hport := port.isLt
  cases suffix with
  | nil => simp [parsePortSuffix, PortIs]
  | cons c digits =>
      by_cases hc : c = ':'
      · subst hc
        by_cases hdigits : (digits.all Char.isDigit && decide (1 ≤ digits.length) &&
            decide (digits.length ≤ 5)) = true
        · rw [parsePortSuffix, if_pos hdigits]
          simp only [Bool.and_eq_true, decide_eq_true_eq] at hdigits
          constructor
          · rintro ⟨p, hp, hall⟩
            simp only at hp
            split at hp
            · cases hp
              exact Or.inr ⟨digits, rfl, hdigits.1.1, hdigits.1.2, hdigits.2,
                of_decide_eq_true hall⟩
            · cases hp
          · rintro (hnil | ⟨digits', heq, -, -, -, hdecimal⟩)
            · cases hnil
            · obtain rfl := (List.cons.inj heq).2
              refine ⟨some (Text.decimal digits), ?_, ?_⟩
              · rw [if_pos (by omega)]
              · exact decide_eq_true hdecimal
        · rw [parsePortSuffix, if_neg hdigits]
          constructor
          · rintro ⟨p, hp, -⟩
            cases hp
          · rintro (hnil | ⟨digits', heq, hall, hmin, hmax, -⟩)
            · cases hnil
            · obtain rfl := (List.cons.inj heq).2
              exact absurd (by simp [hall, hmin, hmax]) hdigits
      · have hnone : parsePortSuffix (c :: digits) = none := by
          unfold parsePortSuffix
          split
          · rename_i heq
            cases heq
          · rename_i heq
            exact absurd (List.cons.inj heq).1 hc
          · rfl
        constructor
        · rintro ⟨p, hp, -⟩
          rw [hnone] at hp
          cases hp
        · rintro (hnil | ⟨digits', heq, -⟩)
          · cases hnil
          · exact absurd (List.cons.inj heq).1 hc

/-! ## Hosts -/

/-- A header that splits is accepted for its name and its port. -/
theorem isAllowedHost_of_split {host : Text} {hostname suffix : Text}
    (hsplit : splitHostPort host = (parsePortSuffix suffix).map fun p => ⟨hostname, p⟩) :
    isAllowedHost case (some host) port = true ↔
      asciiLower hostname ∈ LOOPBACK_HOSTNAMES ∧ PortIs port suffix := by
  rw [← parsePortSuffix_iff, isAllowedHost, hsplit]
  cases hp : parsePortSuffix suffix with
  | none => simp
  | some p =>
      rw [Option.map_some]
      simp only [Bool.and_eq_true, toLowerCase_mem, Option.some.injEq, exists_eq_left']

theorem not_isAllowedHost_of_split {host : Text} (hsplit : splitHostPort host = none) :
    isAllowedHost case (some host) port = false := by
  rw [isAllowedHost, hsplit]

theorem portIs_head {suffix : Text} (h : PortIs port suffix) :
    suffix = [] ∨ ∃ digits, suffix = ':' :: digits ∧ ':' ∉ digits := by
  rcases h with hnil | ⟨digits, heq, hall, -⟩
  · exact Or.inl hnil
  · refine Or.inr ⟨digits, heq, fun hmem => ?_⟩
    have hdigit := List.all_eq_true.mp hall ':' hmem
    exact absurd hdigit (by decide)

/-- The names, one by one. -/
theorem mem_HOST_NAMES {name : Text} : asciiLower name ∈ HOST_NAMES ↔
    asciiLower name ∈ ["localhost".toList, "127.0.0.1".toList] ∨
      asciiLower name = "[::1]".toList := by
  simp [HOST_NAMES, or_assoc]

theorem mem_LOOPBACK_HOSTNAMES {name : Text} : asciiLower name ∈ LOOPBACK_HOSTNAMES ↔
    asciiLower name ∈ ["localhost".toList, "127.0.0.1".toList] ∨
      asciiLower name = "::1".toList := by
  simp [LOOPBACK_HOSTNAMES, or_assoc]

/-- The two names that are no address have no marks in them. -/
theorem no_mark {name : Text} (h : asciiLower name ∈ ["localhost".toList, "127.0.0.1".toList])
    {d : Char} (hd : d = ':' ∨ d = '[' ∨ d = ']') : d ∉ name := by
  rw [← mark_mem_asciiLower hd]
  have hall : ∀ name ∈ ["localhost".toList, "127.0.0.1".toList],
      ':' ∉ name ∧ '[' ∉ name ∧ ']' ∉ name := by decide
  obtain ⟨hcolon, hopen, hclose⟩ := hall _ h
  rcases hd with rfl | rfl | rfl
  · exact hcolon
  · exact hopen
  · exact hclose

/-- The address in brackets is the address between brackets. -/
theorem asciiLower_eq_bracketed {name : Text} : asciiLower name = "[::1]".toList ↔
    ∃ address, name = '[' :: (address ++ [']']) ∧ asciiLower address = "::1".toList := by
  constructor
  · intro h
    have hchars : asciiLower name = ['[', ':', ':', '1', ']'] := h
    obtain ⟨c, t, rfl, hc, ht⟩ := List.map_eq_cons_iff.mp hchars
    obtain ⟨a, b, rfl, ha, hb⟩ := List.map_eq_append_iff.mp
      (ht.trans (show _ = [':', ':', '1'] ++ [']'] from rfl))
    obtain ⟨d, e, rfl, hd, he⟩ := List.map_eq_cons_iff.mp hb
    obtain rfl := List.map_eq_nil_iff.mp he
    rw [(toLower_eq_mark (Or.inr (Or.inl rfl))).mp hc,
      (toLower_eq_mark (Or.inr (Or.inr rfl))).mp hd]
    exact ⟨a, rfl, ha⟩
  · rintro ⟨address, rfl, haddress⟩
    rw [asciiLower, List.map_cons, List.map_append]
    have hmap : address.map Char.toLower = "::1".toList := haddress
    rw [hmap]
    decide

theorem no_close {address : Text} (h : asciiLower address = "::1".toList) : ']' ∉ address := by
  rw [← mark_mem_asciiLower (Or.inr (Or.inr rfl)), h]
  decide

/-- Accepted with brackets: the three names without them. -/
theorem isAllowedHost_bracket {text rest : Text} (htrim : text.trim = '[' :: rest) :
    isAllowedHost case (some text) port = true ↔ ∃ hostname suffix,
      rest = hostname ++ ']' :: suffix ∧ ']' ∉ hostname ∧
        asciiLower hostname ∈ LOOPBACK_HOSTNAMES ∧ PortIs port suffix := by
  cases hcut : Text.cut ']' rest with
  | none =>
      have hsplit : splitHostPort text = none := by
        simp only [splitHostPort, htrim, hcut]
      rw [not_isAllowedHost_of_split hsplit]
      constructor
      · intro h
        cases h
      · rintro ⟨hostname, suffix, rfl, -⟩
        exact absurd (by simp) (Text.cut_eq_none.mp hcut)
  | some parts =>
      obtain ⟨hostname, suffix⟩ := parts
      obtain ⟨rfl, hnot⟩ := Text.cut_eq_some.mp hcut
      have hsplit : splitHostPort text =
          (parsePortSuffix suffix).map fun p => ⟨hostname, p⟩ := by
        simp only [splitHostPort, htrim, hcut]
      rw [isAllowedHost_of_split hsplit]
      constructor
      · rintro ⟨hname, hsuffix⟩
        exact ⟨hostname, suffix, rfl, hnot, hname, hsuffix⟩
      · rintro ⟨hostname', suffix', heq, hnot', hname, hsuffix⟩
        have hcut' := Text.cut_append suffix' hnot'
        rw [← heq, hcut] at hcut'
        obtain ⟨rfl, rfl⟩ := Prod.mk.inj (Option.some.inj hcut')
        exact ⟨hname, hsuffix⟩

theorem splitHostPort_plain {text : Text} (hne : text.trim ≠ [])
    (hopen : text.trim.head? ≠ some '[') : splitHostPort text =
      match Text.cut ':' text.trim with
      | none => some ⟨text.trim, none⟩
      | some (hostname, rest) =>
          if rest.contains ':' then none
          else (parsePortSuffix (':' :: rest)).map fun port => ⟨hostname, port⟩ := by
  unfold splitHostPort
  split
  · rename_i hnil
    exact absurd hnil hne
  · rename_i rest hcons
    rw [hcons] at hopen
    exact absurd rfl hopen
  · rfl

/-- Accepted without brackets: the two names that are no address. -/
theorem isAllowedHost_plain {text : Text} (hne : text.trim ≠ [])
    (hopen : text.trim.head? ≠ some '[') :
    isAllowedHost case (some text) port = true ↔ ∃ hostname suffix,
      text.trim = hostname ++ suffix ∧
        asciiLower hostname ∈ ["localhost".toList, "127.0.0.1".toList] ∧ PortIs port suffix := by
  have hsplit := splitHostPort_plain hne hopen
  have hcolon : ∀ hostname : Text, ':' ∉ hostname → asciiLower hostname ∈ LOOPBACK_HOSTNAMES →
      asciiLower hostname ∈ ["localhost".toList, "127.0.0.1".toList] := by
    intro hostname hnot hname
    rcases mem_LOOPBACK_HOSTNAMES.mp hname with hname | haddress
    · exact hname
    · rw [← mark_mem_asciiLower (Or.inl rfl), haddress] at hnot
      exact absurd (by decide) hnot
  cases hcut : Text.cut ':' text.trim with
  | none =>
      rw [hcut] at hsplit
      have hsplit' : splitHostPort text =
          (parsePortSuffix []).map fun p => ⟨text.trim, p⟩ := hsplit
      have hnot := Text.cut_eq_none.mp hcut
      rw [isAllowedHost_of_split hsplit']
      constructor
      · rintro ⟨hname, hsuffix⟩
        exact ⟨text.trim, [], (List.append_nil _).symm, hcolon _ hnot hname, hsuffix⟩
      · rintro ⟨hostname, suffix, heq, hname, hsuffix⟩
        rcases portIs_head hsuffix with rfl | ⟨digits, rfl, -⟩
        · rw [List.append_nil] at heq
          exact ⟨mem_LOOPBACK_HOSTNAMES.mpr (Or.inl (heq ▸ hname)), hsuffix⟩
        · rw [heq] at hnot
          exact absurd (by simp) hnot
  | some parts =>
      obtain ⟨hostname, rest⟩ := parts
      obtain ⟨htrim, hnot⟩ := Text.cut_eq_some.mp hcut
      have hunique : ∀ name suffix, text.trim = name ++ suffix →
          asciiLower name ∈ ["localhost".toList, "127.0.0.1".toList] → PortIs port suffix →
          name = hostname ∧ suffix = ':' :: rest ∧ ':' ∉ rest := by
        intro name suffix heq hname hsuffix
        rcases portIs_head hsuffix with rfl | ⟨digits, rfl, hdigits⟩
        · rw [List.append_nil] at heq
          rw [← heq, htrim] at hname
          exact absurd (by simp) (no_mark hname (Or.inl rfl))
        · have hcut' := Text.cut_append digits (no_mark hname (Or.inl rfl))
          rw [← heq, hcut] at hcut'
          obtain ⟨rfl, rfl⟩ := Prod.mk.inj (Option.some.inj hcut')
          exact ⟨rfl, rfl, hdigits⟩
      rw [hcut] at hsplit
      simp only at hsplit
      by_cases hsecond : ':' ∈ rest
      · rw [if_pos (List.contains_iff_mem.mpr hsecond)] at hsplit
        rw [not_isAllowedHost_of_split hsplit]
        constructor
        · intro h
          cases h
        · rintro ⟨name, suffix, heq, hname, hsuffix⟩
          exact absurd hsecond (hunique name suffix heq hname hsuffix).2.2
      · rw [if_neg (by simpa using hsecond)] at hsplit
        rw [isAllowedHost_of_split hsplit]
        constructor
        · rintro ⟨hname, hsuffix⟩
          exact ⟨hostname, ':' :: rest, htrim, hcolon _ hnot hname, hsuffix⟩
        · rintro ⟨name, suffix, heq, hname, hsuffix⟩
          obtain ⟨rfl, rfl, -⟩ := hunique name suffix heq hname hsuffix
          exact ⟨mem_LOOPBACK_HOSTNAMES.mpr (Or.inl hname), hsuffix⟩

theorem asciiLower_ne_nil {name : Text} (h : asciiLower name ∈ HOST_NAMES) : name ≠ [] := by
  rintro rfl
  exact absurd h (by decide)

/-- Everything the host check accepts. -/
theorem isAllowedHost_iff (host : Option Text) : isAllowedHost case host port = true ↔
    HostIsOurs host port ∨ BracketedName host port := by
  cases host with
  | none => simp [isAllowedHost, HostIsOurs, BracketedName]
  | some text =>
      simp only [HostIsOurs, BracketedName, Option.some.injEq, exists_and_left, exists_eq_left']
      cases htrim : text.trim with
      | nil =>
          have hsplit : splitHostPort text = none := by simp only [splitHostPort, htrim]
          rw [not_isAllowedHost_of_split hsplit]
          constructor
          · intro h
            cases h
          · rintro (⟨name, suffix, heq, hname, -⟩ | ⟨name, suffix, heq, -⟩)
            · exact absurd (List.append_eq_nil_iff.mp heq.symm).1 (asciiLower_ne_nil hname)
            · cases heq
      | cons c rest =>
          by_cases hc : c = '['
          · subst hc
            rw [isAllowedHost_bracket htrim]
            constructor
            · rintro ⟨hostname, suffix, rfl, -, hname, hsuffix⟩
              rcases mem_LOOPBACK_HOSTNAMES.mp hname with hname | haddress
              · exact Or.inr ⟨hostname, suffix, rfl, hname, hsuffix⟩
              · refine Or.inl ⟨'[' :: (hostname ++ [']']), suffix, by simp, ?_, hsuffix⟩
                exact mem_HOST_NAMES.mpr (Or.inr (asciiLower_eq_bracketed.mpr
                  ⟨hostname, rfl, haddress⟩))
            · rintro (⟨name, suffix, heq, hname, hsuffix⟩ | ⟨name, suffix, heq, hname, hsuffix⟩)
              · rcases mem_HOST_NAMES.mp hname with hname | hname
                · have hopen := no_mark hname (Or.inr (Or.inl rfl))
                  cases name with
                  | nil => exact absurd hname (by decide)
                  | cons d name =>
                      obtain rfl := (List.cons.inj heq).1
                      exact absurd (List.mem_cons_self ..) hopen
                · obtain ⟨address, rfl, haddress⟩ := asciiLower_eq_bracketed.mp hname
                  refine ⟨address, suffix, ?_, no_close haddress,
                    mem_LOOPBACK_HOSTNAMES.mpr (Or.inr haddress), hsuffix⟩
                  simpa using heq
              · refine ⟨name, suffix, (List.cons.inj heq).2, ?_,
                  mem_LOOPBACK_HOSTNAMES.mpr (Or.inl hname), hsuffix⟩
                exact no_mark hname (Or.inr (Or.inr rfl))
          · rw [isAllowedHost_plain (by simp [htrim]) (by simp [htrim, hc]), htrim]
            constructor
            · rintro ⟨name, suffix, heq, hname, hsuffix⟩
              exact Or.inl ⟨name, suffix, heq, mem_HOST_NAMES.mpr (Or.inl hname), hsuffix⟩
            · rintro (⟨name, suffix, heq, hname, hsuffix⟩ | ⟨name, suffix, heq, -⟩)
              · rcases mem_HOST_NAMES.mp hname with hname | hname
                · exact ⟨name, suffix, heq, hname, hsuffix⟩
                · obtain ⟨address, rfl, -⟩ := asciiLower_eq_bracketed.mp hname
                  exact absurd (List.cons.inj heq).1 hc
              · exact absurd (List.cons.inj heq).1 hc

/-- A name in brackets is none of the three. -/
theorem not_hostIsOurs_of_bracketed {host : Option Text} (h : BracketedName host port) :
    ¬ HostIsOurs host port := by
  obtain ⟨text, name, suffix, rfl, htrim, hname, -⟩ := h
  rintro ⟨text', name', suffix', heq, htrim', hname', -⟩
  obtain rfl := Option.some.inj heq
  rw [htrim] at htrim'
  rcases mem_HOST_NAMES.mp hname' with hname' | hname'
  · cases name' with
    | nil => exact absurd hname' (by decide)
    | cons d name' =>
        obtain rfl := (List.cons.inj htrim').1
        exact absurd (List.mem_cons_self ..) (no_mark hname' (Or.inr (Or.inl rfl)))
  · obtain ⟨address, rfl, haddress⟩ := asciiLower_eq_bracketed.mp hname'
    have hcut := Text.cut_append suffix (no_mark hname (Or.inr (Or.inr rfl)))
    have hcut' := Text.cut_append suffix' (no_close haddress)
    have hrest : name ++ ']' :: suffix = address ++ ']' :: suffix' := by simpa using htrim'
    rw [hrest, hcut'] at hcut
    obtain ⟨rfl, -⟩ := Prod.mk.inj (Option.some.inj hcut)
    rw [haddress] at hname
    exact absurd hname (by decide)

/-! ## Origins -/

section Origin

variable {urls : UrlParser} {origin : Option Text} {url : Url}

theorem stripBrackets_address (address : Text) :
    stripBrackets ('[' :: (address ++ [']'])) = address := by
  simp [stripBrackets]

theorem stripBrackets_name {hostname : Text} (hopen : '[' ∉ hostname) (hclose : ']' ∉ hostname) :
    stripBrackets hostname = hostname := by
  have hhead : hostname.head? ≠ some '[' := fun h => hopen (List.mem_of_head? h)
  have hlast : hostname.getLast? ≠ some ']' := fun h => hclose (List.mem_of_getLast? h)
  simp only [stripBrackets, if_neg hhead, if_neg hlast]

/-- The host name of a web page is in the list exactly if it is one of the three names. -/
theorem hostname_allowed {text : Text} (hparse : urls.parse text = some url)
    (hweb : url.isWeb = true) :
    LOOPBACK_HOSTNAMES.contains (case.toLowerCase (stripBrackets url.hostname)) = true ↔
      url.hostname ∈ HOST_NAMES := by
  obtain ⟨-, hlower⟩ := urls.lower text url hparse hweb
  have hhost : url.hostname ∈ HOST_NAMES ↔ asciiLower url.hostname ∈ HOST_NAMES := by rw [hlower]
  rw [toLowerCase_mem, hhost, mem_HOST_NAMES, mem_LOOPBACK_HOSTNAMES]
  rcases urls.hostname text url hparse hweb with
    ⟨address, hname, hcolon, -⟩ | ⟨hopen, hclose, hcolon⟩
  · rw [hname, stripBrackets_address]
    constructor
    · rintro (h | h)
      · exact absurd hcolon (no_mark h (Or.inl rfl))
      · exact Or.inr (asciiLower_eq_bracketed.mpr ⟨address, rfl, h⟩)
    · rintro (h | h)
      · exact absurd (List.mem_cons_self ..) (no_mark h (Or.inr (Or.inl rfl)))
      · obtain ⟨address', heq, haddress⟩ := asciiLower_eq_bracketed.mp h
        obtain rfl := List.append_cancel_right (List.cons.inj heq).2
        exact Or.inr haddress
  · rw [stripBrackets_name hopen hclose]
    constructor
    · rintro (h | h)
      · exact Or.inl h
      · rw [← mark_mem_asciiLower (Or.inl rfl), h] at hcolon
        exact absurd (by decide) hcolon
    · rintro (h | h)
      · exact Or.inl h
      · obtain ⟨address, heq, -⟩ := asciiLower_eq_bracketed.mp h
        exact absurd (heq ▸ List.mem_cons_self ..) hopen

/-- Everything the origin check accepts. -/
theorem isAllowedOrigin_iff (origin : Option Text) :
    isAllowedOrigin case urls origin port = true ↔
      OriginIsOurs urls origin port ∨ OtherDefaultPort urls origin port := by
  cases origin with
  | none => simp [isAllowedOrigin, OriginIsOurs]
  | some text =>
      by_cases hblank : text.trim = []
      · simp [isAllowedOrigin, OriginIsOurs, hblank]
      · simp only [OriginIsOurs, OtherDefaultPort, Option.some.injEq, forall_eq', ne_eq, hblank,
          not_false_eq_true, forall_const, exists_and_left, exists_eq_left', true_and]
        cases hparse : urls.parse text.trim with
        | none => simp [isAllowedOrigin, hblank, hparse]
        | some url =>
            have hnull : text.trim ≠ "null".toList := by
              intro heq
              rw [heq, urls.parse_null] at hparse
              cases hparse
            simp only [isAllowedOrigin, hblank, if_false, hnull, hparse, Bool.and_eq_true,
              Option.some.injEq, exists_eq_left']
            by_cases hweb : url.isWeb = true
            · rw [hostname_allowed hparse hweb]
              simp only [hweb, true_and]
              cases hport : url.port with
              | none =>
                  simp only [Option.all_none, and_true, true_and, Url.effectivePort, hport,
                    Option.getD_none]
                  by_cases hdefault : url.defaultPort = port
                  · simp [hdefault]
                  · simp [hdefault]
              | some p => simp [Url.effectivePort, hport]
            · simp [hweb]

theorem not_originIsOurs_of_otherDefaultPort {origin : Option Text}
    (h : OtherDefaultPort urls origin port) : ¬ OriginIsOurs urls origin port := by
  obtain ⟨text, url, rfl, hne, hparse, -, -, hport, hdefault⟩ := h
  intro hours
  obtain ⟨url', hparse', -, -, heffective⟩ := hours text rfl hne
  rw [hparse, Option.some.injEq] at hparse'
  obtain rfl := hparse'
  rw [Url.effectivePort, hport] at heffective
  exact hdefault heffective

end Origin

/-! ## The boundary -/

/-- The checks accept what they are for, and nothing besides, exactly where the host is no name
in brackets and the origin is no page of another default port. -/
theorem boundary_iff (case : CaseMapping) (urls : UrlParser) (host origin : Option Text)
    (port : Port) :
    ((isAllowedHost case host port = true ↔ HostIsOurs host port) ↔
        ¬ BracketedName host port) ∧
      ((isAllowedOrigin case urls origin port = true ↔ OriginIsOurs urls origin port) ↔
        ¬ OtherDefaultPort urls origin port) := by
  have hhost := fun h : BracketedName host port => not_hostIsOurs_of_bracketed h
  have horigin := fun h : OtherDefaultPort urls origin port =>
    not_originIsOurs_of_otherDefaultPort h
  rw [isAllowedHost_iff, isAllowedOrigin_iff]
  constructor
  · tauto
  · tauto

/-! ## A page of another port -/

def asciiCase : CaseMapping where
  toLowerCase := asciiLower
  ascii _ _ := rfl
  other _ h := ascii_of_asciiLower fun c hc => (h c hc).1

/-- A parser of two origins. -/
def twoOrigins : UrlParser where
  parse text :=
    if text = "http://localhost".toList then
      some ⟨"http:".toList, "localhost".toList, none⟩
    else if text = "http://localhost:4173".toList then
      some ⟨"http:".toList, "localhost".toList, some 4173⟩
    else none
  parse_null := by decide
  hostname text url h _ := by
    apply Or.inr
    split at h
    · cases h
      decide
    · split at h
      · cases h
        decide
      · cases h
  lower text url h _ := by
    have hall : "localhost".toList.all (fun c => c.toNat < 128) = true := by decide
    have hlower : (∀ c ∈ "localhost".toList, c.toNat < 128) ∧
        asciiLower "localhost".toList = "localhost".toList :=
      ⟨fun c hc => by simpa using List.all_eq_true.mp hall c hc, by decide⟩
    split at h
    · cases h
      exact hlower
    · split at h
      · cases h
        exact hlower
      · cases h
  port text url h _ := by
    split at h
    · cases h
      decide
    · split at h
      · cases h
        decide
      · cases h

/-- The page of `http://localhost`, which another server serves, is let in. -/
theorem not_originIsOurs_localhost : ¬ ∀ (case : CaseMapping) (urls : UrlParser)
    (origin : Option Text) (port : Port),
    isAllowedOrigin case urls origin port = true ↔ OriginIsOurs urls origin port := by
  intro h
  have hlocal := (h asciiCase twoOrigins (some "http://localhost".toList) 4173).mp (by decide)
  obtain ⟨url, hparse, -, -, hport⟩ := hlocal _ rfl (by decide)
  obtain rfl := Option.some.inj hparse
  exact absurd hport (by decide)

end AfyxGraph.UiServer
