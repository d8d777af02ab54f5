import DirectiveEngine.Directive.Webhook
import DirectiveEngine.Proofs.Dictionary
import DirectiveEngine.Proofs.Text.Search
import DirectiveEngine.Proofs.Text.Trim

/-!
# Reading back written webhooks

A webhook that is written with a capture segment is read back as it was meant, whatever its body is (`parse?_written`).
Without the segment the body is kept as long as `>>` is not in it, as the first `>>` anywhere opens a segment
(`body_kept_iff`).
-/

namespace DirectiveEngine.WebhookSpec

variable {url name headers body t u : Text}

/-! ### Parts -/

/-- A text that ends where the next separator is written. -/
structure IsPart (t : Text) : Prop where
  separator : ¬ "::" <:+: t
  last : t.getLast? ≠ some ':'

instance (t : Text) : Decidable (IsPart t) :=
  decidable_of_iff (Text.contains "::" t = false ∧ t.getLast? ≠ some ':')
    ⟨fun h => ⟨(Text.contains_eq_false_iff (by simp)).1 h.1, h.2⟩,
      fun h => ⟨(Text.contains_eq_false_iff (by simp)).2 h.separator, h.last⟩⟩

namespace IsPart

theorem marked (h : IsPart t) (silent : Bool) : IsPart ((if silent then ['!'] else []) ++ t) := by
  cases silent with
  | false => exact h
  | true =>
    refine ⟨fun hinfix => h.separator (Text.infix_of_infix_append (by decide) hinfix), ?_⟩
    cases t with
    | nil => decide
    | cons c t => exact h.last

theorem splitFirst? (h : IsPart t) (rest : Text) : Text.splitFirst? "::" (t ++ "::" ++ rest) = some (t, rest) := by
  rw [List.append_assoc]
  exact Text.splitFirst?_pair h.separator h.last rest

/-- What follows the second separator is not cut. -/
theorem splitUpTo (ht : IsPart t) (hu : IsPart u) (rest : Text) :
    Text.splitUpTo "::" 2 (t ++ "::" ++ u ++ "::" ++ rest) = [t, u, rest] := by
  have hcut : t ++ "::" ++ u ++ "::" ++ rest = t ++ "::" ++ (u ++ "::" ++ rest) := by simp
  rw [hcut, Text.splitUpTo, ht.splitFirst?]
  simp only [Text.splitUpTo, hu.splitFirst?]

end IsPart

/-- The three parts of a webhook without a capture segment. -/
theorem parse?_parts {capture : Capture} {raw : Text} (hurl : IsPart url) (htrim : url.trim = url) (hne : url ≠ [])
    (hheaders : IsPart headers) (hrest : takeCapture raw = (capture, url ++ "::" ++ headers ++ "::" ++ body)) :
    parse? raw = some
      { url, headers := parseHeaders headers, body, capture := capture.name, silent := capture.silent,
        dynamicCapture := capture.dynamic } := by
  rw [parse?, hrest]
  simp only [hurl.splitUpTo hheaders, List.headD_cons, htrim, List.isEmpty_eq_false_iff.2 hne]
  rfl

/-- The address is what stands in front of the first separator, trimmed. -/
theorem url_of_parse? {raw : Text} {spec : WebhookSpec} (h : parse? raw = some spec) :
    spec.url.trim = spec.url ∧ spec.url ≠ [] ∧ ¬ "::" <:+: spec.url := by
  obtain ⟨part, hpart, hurl, hne⟩ : ∃ part : Text, ¬ "::" <:+: part ∧ spec.url = part.trim ∧ part.trim ≠ [] := by
    unfold parse? at h
    simp only at h
    split at h
    · cases h
    · rename_i hne
      cases h
      exact ⟨_, Text.not_infix_headD_splitUpTo (by simp) 1 _, rfl, fun hnil => hne (List.isEmpty_iff.2 hnil)⟩
  rw [hurl]
  exact ⟨Text.trim_trim part, hne, fun hin => hpart (hin.trans (Text.trim_isInfix part))⟩

/-! ### Headers -/

/-- A header that is read back as it is written. -/
structure IsHeader (h : Text × Text) : Prop where
  name_trim : h.1.trim = h.1
  name_ne_nil : h.1 ≠ []
  name_marks : ':' ∉ h.1 ∧ ',' ∉ h.1
  value_trim : h.2.trim = h.2
  value_ne_nil : h.2 ≠ []
  value_marks : ',' ∉ h.2 ∧ ¬ "::" <:+: h.2
  value_ends : h.2.head? ≠ some ':' ∧ h.2.getLast? ≠ some ':'

/-- Headers as they are written, in the order they are listed. -/
def writtenHeaders (hs : List (Text × Text)) : Text :=
  Text.join "," (hs.map fun h => h.1 ++ ':' :: h.2)

namespace IsHeader

variable {h : Text × Text}

theorem comma_not_mem (hh : IsHeader h) : ',' ∉ h.1 ++ ':' :: h.2 := by
  simp [hh.name_marks.2, hh.value_marks.1]

theorem head_not_blank (hh : IsHeader h) (rest : Text) :
    ∀ c ∈ (h.1 ++ rest).head?, isBlank c = false := by
  rw [List.head?_append_of_ne_nil _ hh.name_ne_nil]
  exact (Text.trim_eq_self_iff.1 hh.name_trim).1

theorem isPart (hh : IsHeader h) : IsPart (h.1 ++ ':' :: h.2) := by
  refine ⟨fun hinfix => ?_, fun hlast => ?_⟩
  · rcases List.infix_cons_iff.1 (Text.infix_of_infix_append hh.name_marks.1 hinfix) with hprefix | hinfix
    · obtain ⟨r, hr⟩ := (List.cons_prefix_cons.1 hprefix).2
      exact hh.value_ends.1 (by rw [← hr]; rfl)
    · exact hh.value_marks.2 hinfix
  · obtain ⟨c, r, hcons⟩ := List.exists_cons_of_ne_nil hh.value_ne_nil
    rw [List.getLast?_append_of_ne_nil _ (List.cons_ne_nil _ _), hcons, List.getLast?_cons_cons, ← hcons] at hlast
    exact hh.value_ends.2 hlast

theorem trim (hh : IsHeader h) : Text.trim (h.1 ++ ':' :: h.2) = h.1 ++ ':' :: h.2 :=
  Text.trim_append (by simpa using hh.head_not_blank []) (Text.trim_cons rfl hh.value_trim) (by simp)

/-- The first colon stands behind the name. -/
theorem splitFirst? (hh : IsHeader h) : Text.splitFirst? ":" (h.1 ++ ':' :: h.2) = some (h.1, h.2) :=
  Text.splitFirst?_of_not_mem hh.name_marks.1 [] h.2

end IsHeader

/-- A listing of headers is a part of its own, and has no blanks at its ends. -/
theorem isPart_writtenHeaders {hs : List (Text × Text)} (hhs : ∀ h ∈ hs, IsHeader h) :
    IsPart (writtenHeaders hs) ∧ Text.trim (writtenHeaders hs) = writtenHeaders hs := by
  induction hs with
  | nil => decide
  | cons h hs ih =>
    have hh := hhs h List.mem_cons_self
    cases hs with
    | nil => simpa [writtenHeaders, Text.join] using And.intro hh.isPart hh.trim
    | cons next hs =>
      obtain ⟨hrest, htrim⟩ := ih fun h hmem => hhs h (List.mem_cons_of_mem _ hmem)
      have hnext := (hhs next (by simp)).name_ne_nil
      have hne : writtenHeaders (next :: hs) ≠ [] := by
        cases hs <;> simp [writtenHeaders, Text.join, List.intercalate_cons_cons]
      have hcons : writtenHeaders (h :: next :: hs) = h.1 ++ (':' :: h.2) ++ ',' :: writtenHeaders (next :: hs) := by
        simp [writtenHeaders, Text.join, List.intercalate_cons_cons]
      rw [hcons]
      refine ⟨⟨?_, ?_⟩, Text.trim_append ?_ (Text.trim_cons rfl htrim) (by simp)⟩
      · rw [Text.infix_append_cons_iff (by simp) (by decide)]
        exact not_or.2 ⟨hh.isPart.separator, hrest.separator⟩
      · obtain ⟨c, r, hr⟩ := List.exists_cons_of_ne_nil hne
        rw [List.getLast?_append_of_ne_nil _ (List.cons_ne_nil _ _), hr, List.getLast?_cons_cons, ← hr]
        exact hrest.last
      · exact hh.head_not_blank _

/-- The headers of a listing, in whatever order it gives them. -/
theorem parseHeaders_written {headers : Dictionary Text} (hordered : headers.Ordered) (hheaders : ∀ h ∈ headers, IsHeader h)
    {listed : List (Text × Text)} (hlisted : listed.Perm headers) :
    parseHeaders (writtenHeaders listed) = headers := by
  have hlistedHeaders : ∀ h ∈ listed, IsHeader h := fun h hmem => hheaders h (hlisted.mem_iff.1 hmem)
  rw [parseHeaders, (isPart_writtenHeaders hlistedHeaders).2]
  cases listed with
  | nil =>
    -- an empty listing is cut into one entry, which is passed over
    rw [hlisted.nil_eq.symm]
    decide
  | cons first rest =>
    have hcut : Text.splitAll "," (writtenHeaders (first :: rest)) =
        (first :: rest).map fun h => h.1 ++ ':' :: h.2 := by
      refine Text.splitAll_join (by simp) fun part hpart => ?_
      obtain ⟨h, hmem, rfl⟩ := List.mem_map.1 hpart
      exact (hlistedHeaders h hmem).comma_not_mem
    have hread : ((first :: rest).filterMap fun h =>
        (Text.splitFirst? ":" (h.1 ++ ':' :: h.2)).map fun e => (e.1.trim, e.2.trim)) = first :: rest := by
      refine (List.filterMap_congr (g := some) fun h hmem => ?_).trans List.filterMap_some
      have hh := hlistedHeaders h hmem
      rw [hh.splitFirst?, Option.map_some, hh.name_trim, hh.value_trim]
    rw [hcut, List.filterMap_map]
    exact (congrArg Dictionary.ofList hread).trans (Dictionary.ofList_of_perm hordered hlisted)

/-! ### The capture segment -/

/-- A name of a variable as it may be written in a capture segment, or nothing. -/
structure IsCaptureName (name : Text) : Prop where
  trim : name.trim = name
  part : IsPart name
  first : name.head? ≠ some '!'

/-- What a segment with a name means. -/
def Capture.of (name : Text) (silent : Bool) : Capture :=
  ⟨if name = [] then none else some name, silent, decide ('%' ∈ name)⟩

theorem IsCaptureName.parse (hname : IsCaptureName name) (silent : Bool) :
    Capture.parse ((if silent then ['!'] else []) ++ name) = Capture.of name silent := by
  cases silent with
  | true =>
    have htrim : Text.trim ('!' :: name) = '!' :: name := Text.trim_cons rfl hname.trim
    simp only [Capture.parse, if_true, List.singleton_append, htrim, List.head?_cons, beq_self_eq_true, List.tail_cons,
      hname.trim]
    cases name <;> simp [Capture.of]
  | false =>
    simp only [Capture.parse, Bool.false_eq_true, if_false, List.nil_append, hname.trim,
      beq_eq_false_iff_ne.2 hname.first]
    cases name <;> simp [Capture.of]

/-- An address as it may be written in front of a capture segment. -/
structure IsAddress (url : Text) : Prop where
  trim : url.trim = url
  ne_nil : url ≠ []
  part : IsPart url
  capture : ¬ ">>" <:+: url
  last : url.getLast? ≠ some '>'

theorem takeCapture_written (hurl : IsAddress url) (hname : IsCaptureName name) (silent : Bool) (rest : Text) :
    takeCapture (url ++ ">>" ++ (if silent then ['!'] else []) ++ name ++ "::" ++ rest) =
      (Capture.of name silent, url ++ "::" ++ rest) := by
  let segment : Text := (if silent then ['!'] else []) ++ name
  have hraw : url ++ ">>" ++ (if silent then ['!'] else []) ++ name ++ "::" ++ rest =
      url ++ (">>" ++ (segment ++ "::" ++ rest)) := by
    simp [segment]
  have hopen : Text.splitFirst? ">>" (url ++ (">>" ++ (segment ++ "::" ++ rest))) =
      some (url, segment ++ "::" ++ rest) :=
    Text.splitFirst?_pair hurl.capture hurl.last _
  have hupto : uptoSeparator (segment ++ "::" ++ rest) = (segment, "::" ++ rest) := by
    rw [uptoSeparator, (hname.part.marked silent).splitFirst?]
  rw [hraw, takeCapture, hopen]
  simp only [hupto, hurl.trim]
  rw [hname.parse, List.append_assoc]

/-- A webhook with a capture segment is read back as it was meant, whatever its body is. -/
theorem parse?_written (hurl : IsAddress url) (hname : IsCaptureName name) {headers : Dictionary Text}
    (hordered : headers.Ordered) (hheaders : ∀ h ∈ headers, IsHeader h) {listed : List (Text × Text)}
    (hlisted : listed.Perm headers) (silent : Bool) (body : Text) :
    parse? (url ++ ">>" ++ (if silent then ['!'] else []) ++ name ++ "::" ++ writtenHeaders listed ++ "::" ++ body) =
      some
        { url, headers, body, capture := if name = [] then none else some name, silent,
          dynamicCapture := decide ('%' ∈ name) } := by
  have hpart : IsPart (writtenHeaders listed) :=
    (isPart_writtenHeaders fun h hmem => hheaders h (hlisted.mem_iff.1 hmem)).1
  have htake := takeCapture_written hurl hname silent (writtenHeaders listed ++ "::" ++ body)
  simp only [← List.append_assoc] at htake
  rw [parse?_parts hurl.part hurl.trim hurl.ne_nil hpart htake, parseHeaders_written hordered hheaders hlisted]
  rfl

/-- Two headers out of order, and a body that holds every separator. -/
theorem parse?_written_two :
    parse? "http://x>>!out_%player%::X-Id:7,Auth:Bearer a:b::c::d >> e, f" = some
      { url := "http://x", headers := [("Auth", "Bearer a:b"), ("X-Id", "7")], body := "c::d >> e, f",
        capture := some "out_%player%", silent := true, dynamicCapture := true } := by
  have hurl : IsAddress "http://x" := ⟨by decide, by decide, by decide +kernel, by decide +kernel, by decide⟩
  have hname : IsCaptureName "out_%player%" := ⟨by decide, by decide +kernel, by decide⟩
  have hheaders : ∀ h ∈ [(("Auth" : Text), ("Bearer a:b" : Text)), ("X-Id", "7")], IsHeader h := by
    intro h hmem
    rcases List.mem_cons.1 hmem with rfl | hmem
    · exact ⟨by decide, by decide, by decide, by decide, by decide, by decide +kernel, by decide⟩
    · rw [List.mem_singleton.1 hmem]
      exact ⟨by decide, by decide, by decide, by decide, by decide, by decide +kernel, by decide⟩
  have hraw : ("http://x>>!out_%player%::X-Id:7,Auth:Bearer a:b::c::d >> e, f" : Text) =
      "http://x" ++ ">>" ++ (if true then ['!'] else []) ++ "out_%player%" ++ "::" ++
        writtenHeaders [("X-Id", "7"), ("Auth", "Bearer a:b")] ++ "::" ++ "c::d >> e, f" := by decide +kernel
  rw [hraw, parse?_written hurl hname (by decide) hheaders (List.Perm.swap _ _ [])]
  decide +kernel

/-! ### Bodies -/

/-- What is left of a body, and the capture segment that it is taken to hold. -/
def cutBody (body : Text) : Capture × Text :=
  match Text.splitFirst? ">>" body with
  | none => (⟨none, false, false⟩, body)
  | some (before, after) =>
    (Capture.parse (uptoSeparator after).1, before.trimEnd ++ (uptoSeparator after).2)

theorem length_uptoSeparator (t : Text) : (uptoSeparator t).2.length ≤ t.length := by
  unfold uptoSeparator
  split
  · rename_i a b hsplit
    have hlen := Text.length_of_splitFirst? hsplit
    simp only [List.length_append]
    omega
  · exact Nat.zero_le _

theorem length_cutBody (h : ">>" <:+: body) : (cutBody body).2.length < body.length := by
  have hfound : (Text.splitFirst? ">>" body).isSome := (Text.contains_iff (by simp)).2 h
  obtain ⟨⟨before, after⟩, hsplit⟩ := Option.isSome_iff_exists.1 hfound
  have hlen := Text.length_of_splitFirst? hsplit
  have htrim : before.trimEnd.length ≤ before.length := by
    have hsub := (List.dropWhile_sublist (l := before.reverse) isBlank).length_le
    rwa [List.length_reverse, ← List.length_reverse] at hsub
  have hupto := length_uptoSeparator after
  have hmark : (">>" : Text).length = 2 := rfl
  rw [cutBody, hsplit]
  simp only [List.length_append]
  omega

/-- What stands in front of the body ends with a separator. -/
theorem takeCapture_append {front : Text} (hfront : ¬ ">>" <:+: front) (hstart : ∀ c ∈ front.head?, isBlank c = false)
    (body : Text) : takeCapture (front ++ "::" ++ body) = ((cutBody body).1, front ++ "::" ++ (cutBody body).2) := by
  have hsplit : Text.splitFirst? ">>" (front ++ "::" ++ body) =
      (Text.splitFirst? ">>" body).map fun p => (front ++ "::" ++ p.1, p.2) := by
    have hfront' : ¬ ">>" <:+: front ++ ':' :: [] := by
      rw [Text.infix_append_cons_iff (by simp) (by decide)]
      exact not_or.2 ⟨hfront, by decide⟩
    have hraw : front ++ "::" ++ body = front ++ ':' :: [] ++ ':' :: body := by simp
    rw [hraw, Text.splitFirst?_append_cons (by simp) (by decide), Text.splitFirst?_of_not_infix hfront']
    simp
  rw [takeCapture, cutBody, hsplit]
  cases hbody : Text.splitFirst? ">>" body with
  | none => rfl
  | some p =>
    have hhead : ∀ c ∈ (front ++ "::" ++ p.1).head?, isBlank c = false := by
      cases front with
      | nil => exact fun c hc => Option.some.inj hc ▸ rfl
      | cons d front => exact hstart
    have hlast : ∀ c ∈ (front ++ "::").getLast?, isBlank c = false := by
      rw [List.getLast?_append_of_ne_nil _ (by simp)]
      exact fun c hc => Option.some.inj hc ▸ rfl
    simp only [Option.map_some, Text.trim_eq_trimEnd hhead, Text.trimEnd_append hlast]
    simp only [List.append_assoc]

/-- Without a capture segment the body of a webhook is kept as long as it does not hold `>>`.  If it does, a part of it
is lost, as its first `>>` opens a segment. -/
theorem body_kept_iff (hurl : IsPart url) (htrim : url.trim = url) (hne : url ≠ []) (hurlMark : ¬ ">>" <:+: url)
    (hheaders : IsPart headers) (hheadersMark : ¬ ">>" <:+: headers) (body : Text) :
    ∃ spec, parse? (url ++ "::" ++ headers ++ "::" ++ body) = some spec ∧
      spec.url = url ∧ spec.headers = parseHeaders headers ∧ spec.body = (cutBody body).2 ∧
      (spec.body = body ↔ ¬ ">>" <:+: body) ∧
      (spec.body = body → spec.capture = none ∧ spec.silent = false) := by
  have hfront : ¬ ">>" <:+: (url ++ "::" ++ headers : Text) := by
    have hcons : url ++ "::" ++ headers = url ++ ':' :: ([] ++ ':' :: headers) := by simp
    rw [hcons, Text.infix_append_cons_iff (by simp) (by decide), Text.infix_append_cons_iff (by simp) (by decide)]
    exact not_or.2 ⟨hurlMark, not_or.2 ⟨by decide, hheadersMark⟩⟩
  have hstart : ∀ c ∈ (url ++ "::" ++ headers).head?, isBlank c = false := by
    rw [List.append_assoc, List.head?_append_of_ne_nil _ hne]
    exact (Text.trim_eq_self_iff.1 htrim).1
  have hparse := parse?_parts hurl htrim hne hheaders (takeCapture_append hfront hstart body)
  refine ⟨_, hparse, rfl, rfl, rfl, ?_⟩
  by_cases hmark : ">>" <:+: body
  · have hlost : (cutBody body).2 ≠ body := fun heq => absurd (congrArg List.length heq) (length_cutBody hmark).ne
    exact ⟨iff_of_false hlost (not_not_intro hmark), fun heq => absurd heq hlost⟩
  · have hkept : cutBody body = (⟨none, false, false⟩, body) := by
      rw [cutBody, Text.splitFirst?_of_not_infix hmark]
    rw [hkept]
    exact ⟨iff_of_true rfl hmark, fun _ => ⟨rfl, rfl⟩⟩

/-- A body with single signs, and with separators in it. -/
theorem body_kept_markup :
    let body : Text := "<b>1::2</b> > 0 :: x"
    ∃ spec, parse? ("http://x" ++ "::" ++ "A:1" ++ "::" ++ body) = some spec ∧ spec.url = "http://x" ∧
      spec.headers = [(("A" : Text), ("1" : Text))] ∧ spec.body = body ∧ spec.capture = none ∧ spec.silent = false := by
  intro body
  have hurlPart : IsPart "http://x" := by decide
  have hheadersPart : IsPart "A:1" := by decide
  obtain ⟨spec, hparse, hurl, hheaders, -, hiff, hnone⟩ :=
    body_kept_iff hurlPart (by decide) (by decide) (by decide +kernel) hheadersPart (by decide +kernel) body
  have hkept : spec.body = body := hiff.2 (by decide +kernel)
  exact ⟨spec, hparse, hurl, hheaders.trans (by decide +kernel), hkept, hnone hkept⟩

/-- A line for a shell that appends to a file. -/
theorem body_cut_redirect :
    parse? "http://x::A:1::echo a >> b" = some
      { url := "http://x", headers := [("A", "1")], body := "echo a", capture := some "b", silent := false,
        dynamicCapture := false } := by
  decide +kernel

end DirectiveEngine.WebhookSpec
