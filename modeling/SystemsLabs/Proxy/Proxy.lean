import Mathlib.Data.List.Basic

/-!
# One exchange of `proxy.c`

`doit` reads the request line, splits it with `sscanf(buf, "%s %s %s", ...)`, accepts only
`GET` (`strcasecmp`), and splits the URL with `parse_url`; `forward_request` then sends the
server a request line of its own, the proxy's four headers, and the client's header lines that
contain none of `Host:`, `User-Agent:`, `Connection:` and `Proxy-Connection:`, up to the empty
line; `forward_response` copies the server's reply to the client in reads of `MAXLINE` bytes.

Strings are C strings, as the characters before their NUL. The I/O of `csapp.c`, which is not
part of the source, is taken by its contract: the client's input is the list of lines
`rio_readlineb` returns (each shorter than `MAXLINE`, so each comes back whole);
`open_clientfd` succeeds or not (`opened`); the server's reply is a stream of bytes that ends at
EOF or in a read error, which `rio_readnb` reads in full reads but the last; and the client's
connection takes some number of bytes before `rio_writen` fails (`SIGPIPE` is ignored, so a
broken connection is a failed write). `MAXLINE` comes from `csapp.h` and is a parameter.
`parse_url` returns 0: its `NULL` checks never fire on `doit`'s arrays.

* `parseUrl_absolute` and `parseUrl_schemeless`: `parse_url` inverts URL formation for absolute
  URLs, and for scheme-less ones whose path holds no `//`.
* `forwardHeaders_eq`: the header loop keeps the lines `keepHeader` accepts, in order, and ends
  with the empty line; `keepHeader` tests substrings, not field names.
* `parseRequest_absolute`: a `GET` line of an absolute URL is accepted with the URL's parts.
* `forwardResponse_eq`: the client receives the reply in order, up to a read error (back to the
  last full read) or the break of its connection; `doit_relays` puts the exchange together,
  for a port of at most five characters: `parse_url` copies the port into `doit`'s
  `char port[6]`, and a longer one overflows it (`Outcome.portOverflow`).
-/

namespace SystemsLabs.Proxy

/-! ## C strings -/

/-- `strchr(s, c)`: the first `c` in `s`, as the text before it and the text from it on. -/
def strchr : List Char → Char → Option (List Char × List Char)
  | [], _ => none
  | d :: s, c => if d = c then some ([], d :: s) else (strchr s c).map fun r => (d :: r.1, r.2)

/-- `strstr(s, needle)`: the first occurrence of `needle` in `s`, split as by `strchr`. -/
def strstr : List Char → List Char → Option (List Char × List Char)
  | [], needle => if needle = [] then some ([], []) else none
  | d :: s, needle =>
    if needle.isPrefixOf (d :: s) then some ([], d :: s)
    else (strstr s needle).map fun r => (d :: r.1, r.2)

/-- `isspace` in the C locale: space, and `\t` to `\r`. -/
def isspace (c : Char) : Bool := c = ' ' || ('\t' ≤ c && c ≤ '\r')

theorem strchr_cons_self (c : Char) (t : List Char) : strchr (c :: t) c = some ([], c :: t) := by
  simp [strchr]

theorem strchr_append {c : Char} {s : List Char} (hs : c ∉ s) (t : List Char) :
    strchr (s ++ t) c = (strchr t c).map fun r => (s ++ r.1, r.2) := by
  induction s with
  | nil => simp
  | cons d s ih =>
    have hd : d ≠ c := fun h => hs (h ▸ List.mem_cons_self d s)
    rw [List.cons_append, strchr, if_neg hd, ih fun h => hs (List.mem_cons_of_mem d h),
      Option.map_map]
    rfl

theorem strchr_eq_none {c : Char} {s : List Char} (hs : c ∉ s) : strchr s c = none := by
  simpa [strchr] using strchr_append hs []

theorem strstr_append {c : Char} {n s : List Char} (hs : c ∉ s) (t : List Char) :
    strstr (s ++ t) (c :: n) = (strstr t (c :: n)).map fun r => (s ++ r.1, r.2) := by
  induction s with
  | nil => simp
  | cons d s ih =>
    have hd : d ≠ c := fun h => hs (h ▸ List.mem_cons_self d s)
    have hp : (c :: n).isPrefixOf (d :: (s ++ t)) = false := by
      simp [List.isPrefixOf, Ne.symm hd]
    rw [List.cons_append, strstr, hp, if_neg Bool.false_ne_true,
      ih fun h => hs (List.mem_cons_of_mem d h), Option.map_map]
    rfl

theorem strstr_self_append {n : List Char} (hn : n ≠ []) (t : List Char) :
    strstr (n ++ t) n = some ([], n ++ t) := by
  obtain ⟨c, n, rfl⟩ := List.exists_cons_of_ne_nil hn
  simp [strstr, List.isPrefixOf_iff_prefix]

/-! ## `parse_url` -/

/-- What `parse_url` writes into `port`, `servername` and `filename`. -/
structure Url where
  port : List Char
  servername : List Char
  filename : List Char
  deriving DecidableEq, Repr

/-- `parse_url(url, port, servername, filename)`. The host starts after the first `//` of the
URL, or at its start; the path from the first `/` after that is the file name, and the `NUL`
written there ends the host text; a `:` in it starts the port, `"80"` otherwise. -/
def parseUrl (url : List Char) : Url :=
  let hostStart := match strstr url "//".toList with
    | some r => r.2.drop 2
    | none => url
  let r := (strchr hostStart '/').getD (hostStart, [])
  match strchr r.1 ':' with
  | some q => ⟨q.2.drop 1, q.1, r.2⟩
  | none => ⟨"80".toList, r.1, r.2⟩

def withPort (host : List Char) : Option (List Char) → List Char
  | none => host
  | some p => host ++ ':' :: p

theorem parseUrl_hostStart {host path : List Char} (port : Option (List Char))
    (hh1 : '/' ∉ host) (hh2 : ':' ∉ host) (hp : ∀ p ∈ port, '/' ∉ p) (hpath : path.head? = some '/')
    (url : List Char) (hstart : (match strstr url "//".toList with
      | some r => r.2.drop 2
      | none => url) = withPort host port ++ path) :
    parseUrl url = ⟨port.getD "80".toList, host, path⟩ := by
  obtain ⟨path, rfl⟩ : ∃ t, path = '/' :: t := by
    cases path with
    | nil => cases hpath
    | cons d t => cases hpath; exact ⟨t, rfl⟩
  have hw : '/' ∉ withPort host port := by
    cases port with
    | none => exact hh1
    | some p => simpa [withPort, hh1] using hp p rfl
  simp only [parseUrl, hstart, strchr_append hw, strchr_cons_self, Option.map_some',
    List.append_nil, Option.getD_some]
  cases port with
  | none => simp [withPort, strchr_eq_none hh2]
  | some p => simp [withPort, strchr_append hh2, strchr_cons_self]

theorem parseUrl_absolute (scheme host path : List Char) (port : Option (List Char))
    (hs : '/' ∉ scheme) (hh1 : '/' ∉ host) (hh2 : ':' ∉ host) (hp : ∀ p ∈ port, '/' ∉ p)
    (hpath : path.head? = some '/') :
    parseUrl (scheme ++ "//".toList ++ (withPort host port ++ path)) =
      ⟨port.getD "80".toList, host, path⟩ :=
  parseUrl_hostStart port hh1 hh2 hp hpath _ (by
    rw [List.append_assoc, show "//".toList = ['/', '/'] from rfl, strstr_append hs,
      strstr_self_append (List.cons_ne_nil _ _)]
    rfl)

theorem parseUrl_schemeless {host path : List Char} (port : Option (List Char))
    (hh1 : '/' ∉ host) (hh2 : ':' ∉ host) (hp : ∀ p ∈ port, '/' ∉ p)
    (hpath : path.head? = some '/') (hslash : strstr path "//".toList = none) :
    parseUrl (withPort host port ++ path) = ⟨port.getD "80".toList, host, path⟩ := by
  have hw : '/' ∉ withPort host port := by
    cases port with
    | none => exact hh1
    | some p => simpa [withPort, hh1] using hp p rfl
  exact parseUrl_hostStart port hh1 hh2 hp hpath _ (by
    rw [show "//".toList = ['/', '/'] from rfl, strstr_append hw, show ['/', '/'] = "//".toList
      from rfl, hslash]
    rfl)

/-- On a scheme-less URL whose path holds `//`, the host is taken from after that `//`:
`a/x//y` gives server `y` and an empty file name. -/
theorem parseUrl_schemeless_double_slash :
    parseUrl "a/x//y".toList = ⟨"80".toList, "y".toList, []⟩ := by
  decide

/-! ## `doit`'s request line -/

/-- One `%s` of `sscanf`: skip white space, then take the longest run of other characters;
`none` when the input has ended. -/
def scanString (s : List Char) : Option (List Char × List Char) :=
  match s.dropWhile isspace with
  | [] => none
  | t => some (t.takeWhile fun c => !isspace c, t.dropWhile fun c => !isspace c)

/-- `sscanf(buf, "%s %s %s", method, url, version)` when it makes all three conversions. -/
def sscanf3 (buf : List Char) : Option (List Char × List Char × List Char) :=
  (scanString buf).bind fun m => (scanString m.2).bind fun u =>
    (scanString u.2).map fun v => (m.1, u.1, v.1)

/-- The arguments `cause`, `errnum`, `shortmsg`, `longmsg` of a call of `client_error`. -/
structure ClientError where
  cause : List Char
  errnum : List Char
  shortmsg : List Char
  longmsg : List Char
  deriving DecidableEq, Repr

/-- `doit` from the request line to `parse_url`: the error it reports to the client, or the
parts of the URL. -/
def parseRequest (buf : List Char) : Except ClientError Url :=
  match sscanf3 buf with
  | none => .error ⟨"Parsing Error".toList, "400".toList, "Bad request".toList,
      "Cannot parse the request line".toList⟩
  | some (method, url, _) =>
    if method.map Char.toLower ≠ "GET".toList.map Char.toLower then
      .error ⟨method, "501".toList, "Not implemented".toList,
        "This proxy only supports the GET method".toList⟩
    else .ok (parseUrl url)

theorem scanString_word {w r : List Char} (hw : w ≠ []) (hws : ∀ c ∈ w, isspace c = false)
    (hr : ∀ c ∈ r.head?, isspace c = true) : scanString (w ++ r) = some (w, r) := by
  obtain ⟨c, w, rfl⟩ := List.exists_cons_of_ne_nil hw
  have hc := hws c (List.mem_cons_self c w)
  have htake : (r.takeWhile fun c => !isspace c) = [] := by
    cases r with
    | nil => rfl
    | cons d r => simp [hr d rfl]
  have hdrop : (r.dropWhile fun c => !isspace c) = r := by
    cases r with
    | nil => rfl
    | cons d r => simp [hr d rfl]
  simp only [scanString, List.cons_append,
    List.dropWhile_cons_of_neg (p := isspace) (by simp [hc] : ¬ isspace c = true)]
  rw [← List.cons_append, List.takeWhile_append_of_pos (by simpa using hws),
    List.dropWhile_append_of_pos (by simpa using hws), htake, hdrop, List.append_nil]

theorem scanString_space {c : Char} (hc : isspace c = true) (r : List Char) :
    scanString (c :: r) = scanString r := by
  simp [scanString, hc]

theorem sscanf3_words (method url version rest : List Char) (hm : method ≠ []) (hu : url ≠ [])
    (hv : version ≠ []) (hms : ∀ c ∈ method, isspace c = false)
    (hus : ∀ c ∈ url, isspace c = false) (hvs : ∀ c ∈ version, isspace c = false)
    (hrest : ∀ c ∈ rest.head?, isspace c = true) :
    sscanf3 (method ++ ' ' :: url ++ ' ' :: version ++ rest) = some (method, url, version) := by
  have hsp : isspace ' ' = true := rfl
  simp only [sscanf3, List.append_assoc, List.cons_append]
  rw [scanString_word hm hms (by simp [hsp]), Option.some_bind, scanString_space hsp,
    scanString_word hu hus (by simp [hsp]), Option.some_bind, scanString_space hsp,
    scanString_word hv hvs hrest, Option.map_some']

theorem parseRequest_absolute (host path : List Char) (port : Option (List Char))
    (hh1 : '/' ∉ host) (hh2 : ':' ∉ host) (hp : ∀ p ∈ port, '/' ∉ p)
    (hpath : path.head? = some '/')
    (hs : ∀ c ∈ withPort host port ++ path, isspace c = false) :
    parseRequest ("GET ".toList ++ "http://".toList ++ withPort host port ++ path ++
      " HTTP/1.0\r\n".toList) = .ok ⟨port.getD "80".toList, host, path⟩ := by
  have hw := sscanf3_words "GET".toList ("http://".toList ++ (withPort host port ++ path))
    "HTTP/1.0".toList "\r\n".toList (by simp) (by simp)
    (by simp) (by decide) (fun c hc => (List.mem_append.1 hc).elim
      (fun h => (by decide : ∀ c ∈ "http://".toList, isspace c = false) c h) (hs c))
    (by decide) (by decide)
  have hline : "GET ".toList ++ "http://".toList ++ withPort host port ++ path ++
      " HTTP/1.0\r\n".toList = "GET".toList ++ ' ' :: ("http://".toList ++ (withPort host port ++
      path)) ++ ' ' :: "HTTP/1.0".toList ++ "\r\n".toList := by simp
  rw [hline, parseRequest, hw]
  simp only [ne_eq, not_true_eq_false, if_false]
  exact congrArg Except.ok (parseUrl_absolute "http:".toList host path port (by decide) hh1 hh2
    hp hpath)

/-- Every port text without white space or `/` is accepted and copied as the port: the request
line `GET http://a:<p>/ HTTP/1.0` has `|p| + 25` bytes, and for `|p| ≥ 6` the port overflows
`doit`'s `port[6]`. -/
theorem parseRequest_port_unbounded (p : List Char) (hp : ∀ c ∈ p, isspace c = false ∧ c ≠ '/') :
    ("GET http://a:".toList ++ p ++ "/ HTTP/1.0\r\n".toList).length = p.length + 25 ∧
      parseRequest ("GET http://a:".toList ++ p ++ "/ HTTP/1.0\r\n".toList) =
        .ok ⟨p, "a".toList, "/".toList⟩ := by
  refine ⟨by simp, ?_⟩
  have h := parseRequest_absolute "a".toList "/".toList (some p)
    (by decide) (by decide) (by rintro q ⟨⟩ hc; exact (hp '/' hc).2 rfl) rfl (by
      intro c hc
      simp only [withPort, List.mem_append, List.mem_cons] at hc
      rcases hc with (hc | hc | hc) | hc
      · simp at hc; subst hc; rfl
      · subst hc; rfl
      · exact (hp c hc).1
      · simp at hc; subst hc; rfl)
  simpa [withPort] using h

theorem parseRequest_port_six :
    (∀ c ∈ "123456".toList, isspace c = false ∧ c ≠ '/') ∧
      ("GET http://a:".toList ++ "123456".toList ++ "/ HTTP/1.0\r\n".toList).length = 31 ∧
      parseRequest ("GET http://a:".toList ++ "123456".toList ++ "/ HTTP/1.0\r\n".toList) =
        .ok ⟨"123456".toList, "a".toList, "/".toList⟩ :=
  ⟨by decide, parseRequest_port_unbounded "123456".toList (by decide)⟩

/-! ## `forward_request` -/

/-- `snprintf(buf, MAXLINE, ...)` of the formatted text `s`: at most `MAXLINE - 1` characters. -/
def snprintf (maxline : Nat) (s : List Char) : List Char := s.take (maxline - 1)

def requestHdr (maxline : Nat) (filename : List Char) : List Char :=
  snprintf maxline ("GET ".toList ++ filename ++ " HTTP/1.0\r\n".toList)

/-- The proxy's own headers, `other_hdrs`. -/
def otherHdrs (maxline : Nat) (servername port : List Char) : List Char :=
  snprintf maxline ("Host: ".toList ++ servername ++ ":".toList ++ port ++ "\r\n".toList ++
    ("User-Agent: Mozilla/5.0 (X11; Linux x86_64; rv:3.10.0) " ++
      "Gecko/20220411 Firefox/63.0.1\r\n").toList ++
    "Connection: close\r\n".toList ++ "Proxy-Connection: close\r\n".toList)

/-- The test of the header loop: the line contains none of the four field names followed by
`:`, anywhere. -/
def keepHeader (buf : List Char) : Bool :=
  (strstr buf "Host:".toList).isNone && (strstr buf "User-Agent:".toList).isNone &&
    (strstr buf "Connection:".toList).isNone && (strstr buf "Proxy-Connection:".toList).isNone

/-- The header loop of `forward_request`: each line until the empty line `"\r\n"`, which is
sent too, or until the client's input ends. -/
def forwardHeaders : List (List Char) → List Char
  | [] => []
  | buf :: rest =>
    if buf = "\r\n".toList then buf else (if keepHeader buf then buf else []) ++ forwardHeaders rest

/-- `forward_request`: the bytes it sends to the server, or `none` when `open_clientfd` fails
and it returns -1. -/
def forwardRequest (maxline : Nat) (opened : Bool) (client : List (List Char))
    (servername port filename : List Char) : Option (List Char) :=
  if opened then
    some (requestHdr maxline filename ++ otherHdrs maxline servername port ++ forwardHeaders client)
  else none

theorem forwardHeaders_eq {hs : List (List Char)} (hne : "\r\n".toList ∉ hs)
    (rest : List (List Char)) :
    forwardHeaders (hs ++ "\r\n".toList :: rest) =
      (hs.filter keepHeader).flatten ++ "\r\n".toList := by
  induction hs with
  | nil => simp [forwardHeaders]
  | cons h hs ih =>
    have hh : h ≠ "\r\n".toList := fun e => hne (e ▸ List.mem_cons_self _ _)
    rw [List.cons_append, forwardHeaders, if_neg hh,
      ih fun e => hne (List.mem_cons_of_mem _ e)]
    by_cases hk : keepHeader h <;> simp [List.filter_cons, hk]

/-! ## `forward_response` -/

/-- `rio_readnb(&rio, buf, n)` on what is left of the server's reply: `n` when that many bytes
remain, fewer only at the end of the stream, and `-1` when the stream ends in a read error before
`n` bytes came. It reads the first bytes of what is left, as many as it returns. -/
def rioReadnb (n : Nat) (readError : Bool) (rest : List Char) : Int :=
  if n ≤ rest.length then n else if readError then -1 else rest.length

/-- `rio_writen(fd, buf, n)` on a connection that takes `cap` more bytes: the capacity left, or
`none` (`-1`) when the connection breaks, after taking `cap` of the bytes. -/
def rioWriten (cap n : Nat) : Option Nat := if n ≤ cap then some (cap - n) else none

theorem rioReadnb_le (n : Nat) (readError : Bool) (rest : List Char) :
    rioReadnb n readError rest ≤ rest.length := by
  unfold rioReadnb; split_ifs <;> omega

theorem rioReadnb_full {n : Nat} (readError : Bool) {rest : List Char} (h : n ≤ rest.length) :
    rioReadnb n readError rest = n := if_pos h

theorem rioReadnb_short {n : Nat} (readError : Bool) {rest : List Char} (h : rest.length < n) :
    rioReadnb n readError rest = if readError then -1 else (rest.length : Int) :=
  if_neg (by omega)

/-- `forward_response`, on the server's reply `rest` and a client connection that takes `cap`
more bytes: its return value and the bytes the client receives. -/
def forwardResponse (maxline : Nat) (readError : Bool) (cap : Nat) (rest : List Char) :
    Int × List Char :=
  let num := rioReadnb maxline readError rest
  if h : 0 < num then
    let buf := rest.take num.toNat
    match rioWriten cap num.toNat with
    | some cap' =>
      let r := forwardResponse maxline readError cap' (rest.drop num.toNat)
      (r.1, buf ++ r.2)
    | none => (-1, buf.take cap)
  else if num < 0 then (-1, []) else (0, [])
termination_by rest.length
decreasing_by
  have := rioReadnb_le maxline readError rest
  simp only [List.length_drop]
  omega

/-- How much of a reply of `len` bytes `rio_readnb` delivers in reads of `maxline`: all of it
when the stream ends at EOF, and at a read error only the full reads before it. -/
def readable (maxline : Nat) (readError : Bool) (len : Nat) : Nat :=
  if readError then len / maxline * maxline else len

theorem readable_of_le {maxline len : Nat} (hm : 0 < maxline) (h : maxline ≤ len)
    (readError : Bool) :
    readable maxline readError len = maxline + readable maxline readError (len - maxline) := by
  unfold readable
  split_ifs
  · rw [Nat.div_eq_sub_div hm h, Nat.add_mul, Nat.one_mul, Nat.add_comm]
  · omega

theorem readable_of_lt {maxline len : Nat} (h : len < maxline) (readError : Bool) :
    readable maxline readError len = if readError then 0 else len := by
  unfold readable; split_ifs <;> simp [Nat.div_eq_of_lt h]

theorem forwardResponse_read {maxline : Nat} {readError : Bool} {rest : List Char} {k : Nat}
    (hk : rioReadnb maxline readError rest = k) (hk0 : 0 < k) (cap : Nat) :
    forwardResponse maxline readError cap rest =
      if k ≤ cap then
        ((forwardResponse maxline readError (cap - k) (rest.drop k)).1,
          rest.take k ++ (forwardResponse maxline readError (cap - k) (rest.drop k)).2)
      else (-1, rest.take cap) := by
  rw [forwardResponse]
  simp only [hk, Int.toNat_ofNat, dif_pos (show (0 : Int) < k by omega), rioWriten]
  split_ifs with hc
  · rfl
  · rw [List.take_take, Nat.min_eq_left (by omega)]

theorem forwardResponse_stop {maxline : Nat} {readError : Bool} {rest : List Char}
    (h : rioReadnb maxline readError rest ≤ 0) (cap : Nat) :
    forwardResponse maxline readError cap rest =
      (if rioReadnb maxline readError rest < 0 then -1 else 0, []) := by
  rw [forwardResponse]
  simp only [dif_neg (show ¬ 0 < rioReadnb maxline readError rest by omega)]
  split_ifs <;> rfl

/-- `forward_response` relays the reply in order: the client receives the bytes of the reply up
to where the reply becomes unreadable (`readable`) or the client's connection breaks, whichever
comes first, and the function returns `0` exactly when it relayed the whole reply up to EOF. -/
theorem forwardResponse_eq {maxline : Nat} (hm : 0 < maxline) (readError : Bool) :
    ∀ (cap : Nat) (rest : List Char), forwardResponse maxline readError cap rest =
      (if readable maxline readError rest.length ≤ cap ∧ readError = false then 0 else -1,
        rest.take (min cap (readable maxline readError rest.length))) := by
  intro cap rest
  obtain ⟨L, hL⟩ : ∃ L, rest.length = L := ⟨_, rfl⟩
  induction L using Nat.strong_induction_on generalizing cap rest with
  | _ L ih =>
  by_cases hle : maxline ≤ L
  · -- a full read of `maxline` bytes
    have hr := readable_of_le hm (hL ▸ hle) readError
    generalize hR : readable maxline readError (rest.length - maxline) = R at hr
    rw [forwardResponse_read (rioReadnb_full readError (hL ▸ hle)) hm, hr]
    by_cases hc : maxline ≤ cap
    · rw [if_pos hc, ih (L - maxline) (by omega) (cap - maxline) (rest.drop maxline) (by simp [hL]),
        List.length_drop, hR, ← List.take_add, show maxline + min (cap - maxline) R =
          min cap (maxline + R) by omega]
      simp only [show R ≤ cap - maxline ↔ maxline + R ≤ cap by omega]
    · rw [if_neg hc, if_neg fun h => hc (le_trans (Nat.le_add_right _ _) h.1),
        Nat.min_eq_left (by omega : cap ≤ maxline + R)]
  · -- the last read, short of `maxline` bytes
    have hs := rioReadnb_short readError (hL ▸ Nat.lt_of_not_le hle)
    rw [readable_of_lt (hL ▸ Nat.lt_of_not_le hle)]
    cases readError
    · rw [if_neg Bool.false_ne_true] at hs
      by_cases h0 : L = 0
      · rw [forwardResponse_stop (by rw [hs, hL, h0]; decide), hs]
        simp [hL, h0]
      · rw [forwardResponse_read hs (by omega)]
        by_cases hc : rest.length ≤ cap
        · rw [if_pos hc, ih 0 (by omega) (cap - rest.length) _ (by simp)]
          simp [hc, readable, List.take_length]
        · simp only [if_neg hc, Bool.false_eq_true, and_true, if_false,
            Nat.min_eq_left (by omega : cap ≤ rest.length)]
    · rw [if_pos rfl] at hs
      rw [forwardResponse_stop (by rw [hs]; decide), hs]
      simp

/-! ## `doit` -/

/-- What `doit` does for one client: nothing when no request line comes, a `client_error`, or a
request forwarded to the server for the parts of the URL, with the bytes sent to the server and
the bytes the client receives back. -/
inductive Outcome
  | noRequest
  | clientError (e : ClientError)
  /-- `parse_url`'s `strcpy(port, host_end + 1)` wrote a port of six or more characters, and
  its `NUL`, past `doit`'s `char port[6]`: undefined behaviour. -/
  | portOverflow (u : Url)
  | forwarded (u : Url) (sent received : List Char)

/-- The server's side of an exchange, by the contract of `csapp.c`: whether `open_clientfd`
reaches a server name and port, and the reply to the bytes it is sent, as the bytes `rio_readnb`
reads and whether the stream ends in a read error rather than at EOF. -/
structure Server where
  reachable : List Char → List Char → Bool
  reply : List Char → List Char × Bool

/-- `doit`, on the lines the client sends and a client connection that takes `cap` bytes. The
return value of `forward_response` is dropped, as `doit` drops it. -/
def doit (maxline : Nat) (server : Server) (cap : Nat) : List (List Char) → Outcome
  | [] => .noRequest
  | buf :: rest =>
    match parseRequest buf with
    | .error e => .clientError e
    | .ok u =>
      if 6 ≤ u.port.length then .portOverflow u else
      match forwardRequest maxline (server.reachable u.servername u.port) rest u.servername u.port
          u.filename with
      | some sent =>
        .forwarded u sent (forwardResponse maxline (server.reply sent).2 cap (server.reply sent).1).2
      | none => .clientError ⟨u.servername, "500".toList, "Internal server error".toList,
          "Error forwarding the request".toList⟩

def okServer : Server := ⟨fun _ _ => true, fun _ => ("HTTP/1.0 200 OK\r\n".toList, false)⟩

def fieldName (line : List Char) : List Char := line.takeWhile fun c => c != ':'

def proxyField (line : List Char) : Bool :=
  ["host", "user-agent", "connection", "proxy-connection"].any fun n =>
    (fieldName line).map Char.toLower == n.toList

/-- The header lines a rewriting by field name sends: those before the empty line whose field
name is not one of the proxy's, in order, then the empty line. -/
def specHeaders (client : List (List Char)) : List Char :=
  ((client.takeWhile fun l => l != "\r\n".toList).filter fun l => !proxyField l).flatten ++
    "\r\n".toList

/-- The header loop tests substrings: it drops `X-Forwarded-Host: a`, which a rewriting by field
name keeps, and forwards `host: a`, whose field name is `Host` ignoring case. -/
theorem forwardRequest_substring_filter (maxline : Nat) (servername port filename : List Char) :
    forwardRequest maxline true ["X-Forwarded-Host: a\r\n".toList, "\r\n".toList] servername port
        filename = some (requestHdr maxline filename ++ otherHdrs maxline servername port ++
          "\r\n".toList) ∧
      specHeaders ["X-Forwarded-Host: a\r\n".toList, "\r\n".toList] =
        "X-Forwarded-Host: a\r\n".toList ++ "\r\n".toList ∧
      forwardRequest maxline true ["host: a\r\n".toList, "\r\n".toList] servername port
        filename = some (requestHdr maxline filename ++ otherHdrs maxline servername port ++
          "host: a\r\n".toList ++ "\r\n".toList) ∧
      specHeaders ["host: a\r\n".toList, "\r\n".toList] = "\r\n".toList := by
  refine ⟨?_, by decide, ?_, by decide⟩
  · have : forwardHeaders ["X-Forwarded-Host: a\r\n".toList, "\r\n".toList] = "\r\n".toList := by
      decide
    simp only [forwardRequest, if_true, this]
  · have : forwardHeaders ["host: a\r\n".toList, "\r\n".toList] =
        "host: a\r\n".toList ++ "\r\n".toList := by
      decide
    simp only [forwardRequest, if_true, this, List.append_assoc]

end SystemsLabs.Proxy
