import AioftpS3.Request.Dict
import Mathlib.Data.Prod.Lex

/-!
`_aws_sig_v4_headers`: the AWS Signature Version 4 of one request, over the canonical request of
the percent-encoded path, the sorted query pairs, the headers sorted by lower-cased name and the
payload hash. Sorting makes it independent of the order the maps were filled in, unless two
pre-auth header names lower-case to one. `hashlib.sha256` and `str.lower` are parameters: every
result holds for every digest and every lower-casing.
-/

set_option autoImplicit false
set_option relaxedAutoImplicit false

namespace AioftpS3.Request.Signer

open AioftpS3.PosixPath AioftpS3.Request.Dict

/-- A `bytes` value. -/
abbrev Bytes := List UInt8

/-! ## Encodings -/

/-- `text.encode('utf-8')`. -/
def utf8 (text : Str) : Bytes := text.flatMap String.utf8EncodeChar

/-- The lower-case hexadecimal digit of `n < 16`. -/
def hexDigit (n : Nat) : Char := "0123456789abcdef".toList.getD n '0'

/-- `bytes.hex()`, and `hexdigest()` of a digest: two lower-case digits a byte. -/
def hex (bytes : Bytes) : Str :=
  bytes.flatMap fun byte => [hexDigit (byte.toNat / 16), hexDigit (byte.toNat % 16)]

/-- `_ALWAYS_SAFE` of `urllib.parse`: the ASCII letters and digits, and `_.-~`. -/
def alwaysSafe (byte : UInt8) : Bool :=
  (Char.ofUInt8 byte).isAlphanum || "_.-~".toList.contains (Char.ofUInt8 byte)

/-- `urllib.parse.quote(text, safe=safe)`: each byte of the text's UTF-8 as it is when it is
always safe or an ASCII character of `safe`, and otherwise as `%XX`. -/
def quote (safe text : Str) : Str :=
  (utf8 text).flatMap fun byte =>
    if alwaysSafe byte || (byte.toNat < 128 && safe.contains (Char.ofUInt8 byte)) then
      [Char.ofUInt8 byte]
    else '%' :: [hexDigit (byte.toNat / 16), hexDigit (byte.toNat % 16)].map Char.toUpper

/-- `str.isspace()`, where `str.split()` splits: the characters of Unicode's `White_Space`
property and the separators `\x1c` to `\x1f`. -/
def isSpace (c : Char) : Bool :=
  [0x09, 0x0A, 0x0B, 0x0C, 0x0D, 0x1C, 0x1D, 0x1E, 0x1F, 0x20, 0x85, 0xA0, 0x1680, 0x2000, 0x2001,
    0x2002, 0x2003, 0x2004, 0x2005, 0x2006, 0x2007, 0x2008, 0x2009, 0x200A, 0x2028, 0x2029,
    0x202F, 0x205F, 0x3000].contains c.toNat

/-- `' '.join(value.split())`: each run of whitespace as one space, and none at either end. -/
def collapse (value : Str) : Str :=
  [' '].intercalate ((value.splitOnP isSpace).filter fun word => !word.isEmpty)

/-- `datetime.utcnow()`, by the two texts the signer formats it to: `amzdate`
(`%Y%m%dT%H%M%SZ`) and `datestamp` (`%Y%m%d`). -/
structure Clock where
  amzdate : Str
  datestamp : Str

/-- `algorithm`. -/
def algorithm : Str := "AWS4-HMAC-SHA256".toList

/-- `credential_scope`. -/
def credentialScope (now : Clock) (region service : Str) : Str :=
  now.datestamp ++ ['/'] ++ region ++ ['/'] ++ service ++ "/aws4_request".toList

/-! ## The canonical request -/

section Canonical

variable (lower : Str → Str)

/-- `pre_auth_headers_lower`. -/
def preAuthHeadersLower (preAuthHeaders : StrDict) : StrDict :=
  StrDict.ofList (preAuthHeaders.entries.map fun entry => (lower entry.1, collapse entry.2))

/-- `required_headers`. -/
def requiredHeaders (host payloadHash amzdate : Str) : StrDict :=
  StrDict.ofList [("host".toList, host), ("x-amz-content-sha256".toList, payloadHash),
    ("x-amz-date".toList, amzdate)]

/-- `headers`: the lower-cased pre-auth headers, and the required ones stored over them. -/
def headers (preAuthHeaders : StrDict) (host payloadHash amzdate : Str) : StrDict :=
  (preAuthHeadersLower lower preAuthHeaders).merge (requiredHeaders host payloadHash amzdate)

end Canonical

/-- `header_keys`: `sorted(headers.keys())`. -/
def headerKeys (headers : StrDict) : List Str := headers.keys.insertionSort (· ≤ ·)

/-- `signed_headers`. -/
def signedHeaders (headers : StrDict) : Str := [';'].intercalate (headerKeys headers)

/-- `quoted_query`: the percent-encoded pairs, sorted as tuples. -/
def quotedQuery (query : StrDict) : List (Lex (Str × Str)) :=
  (query.entries.map fun entry => toLex (quote ['~'] entry.1, quote ['~'] entry.2)).insertionSort
    (· ≤ ·)

/-- `canonical_request()`. `headers[key]` is there for every key of `header_keys`. -/
def canonicalRequest (method path : Str) (query headers : StrDict) (payloadHash : Str) : Str :=
  let canonicalUri := quote ['/', '~'] path
  let canonicalQuerystring :=
    ['&'].intercalate ((quotedQuery query).map fun pair => (ofLex pair).1 ++ ['='] ++ (ofLex pair).2)
  let canonicalHeaders := (headerKeys headers).flatMap fun key =>
    key ++ [':'] ++ (headers.get? key).getD [] ++ ['\n']
  method ++ ['\n'] ++ canonicalUri ++ ['\n'] ++ canonicalQuerystring ++ ['\n'] ++
    canonicalHeaders ++ ['\n'] ++ signedHeaders headers ++ ['\n'] ++ payloadHash

/-! ## The signature -/

section Signature

variable (sha256 : Bytes → Bytes)

/-- `hmac.new(key, msg, hashlib.sha256).digest()`: HMAC over SHA-256's 64-byte blocks. -/
def hmacSha256 (key msg : Bytes) : Bytes :=
  let key := if 64 < key.length then sha256 key else key
  let block := key ++ List.replicate (64 - key.length) 0
  sha256 (block.map (· ^^^ 0x5c) ++ sha256 (block.map (· ^^^ 0x36) ++ msg))

/-- `sign(key, msg)`. -/
def sign (key : Bytes) (msg : Str) : Bytes := hmacSha256 sha256 key (utf8 msg)

/-- `signature()`, over the canonical request. -/
def signature (secretAccessKey region service : Str) (now : Clock) (canonical : Str) : Str :=
  let stringToSign := algorithm ++ ['\n'] ++ now.amzdate ++ ['\n'] ++
    credentialScope now region service ++ ['\n'] ++ hex (sha256 (utf8 canonical))
  let dateKey := sign sha256 (utf8 ("AWS4".toList ++ secretAccessKey)) now.datestamp
  let regionKey := sign sha256 dateKey region
  let serviceKey := sign sha256 regionKey service
  let requestKey := sign sha256 serviceKey "aws4_request".toList
  hex (sign sha256 requestKey stringToSign)

variable (lower : Str → Str)

/-- `_aws_sig_v4_headers(...)` at the clock reading `now`: the pre-auth headers as given, then
`x-amz-date`, `x-amz-content-sha256` and `Authorization`. -/
def awsSigV4Headers (accessKeyId secretAccessKey : Str) (preAuthHeaders : StrDict)
    (service region host method path : Str) (query : StrDict) (payloadHash : Str) (now : Clock) :
    StrDict :=
  let headers := headers lower preAuthHeaders host payloadHash now.amzdate
  preAuthHeaders.insertAll
    [("x-amz-date".toList, now.amzdate), ("x-amz-content-sha256".toList, payloadHash),
      ("Authorization".toList, algorithm ++ " Credential=".toList ++ accessKeyId ++ ['/'] ++
        credentialScope now region service ++ ", SignedHeaders=".toList ++ signedHeaders headers ++
        ", Signature=".toList ++ signature sha256 secretAccessKey region service now
          (canonicalRequest method path query headers payloadHash))]

end Signature

/-! ## The order the maps were filled in -/

private theorem insertionSort_eq_of_perm {α : Type} [LinearOrder α] {l l' : List α} (perm : l.Perm l') :
    l.insertionSort (· ≤ ·) = l'.insertionSort (· ≤ ·) :=
  List.eq_of_perm_of_sorted
    (((List.perm_insertionSort _ l).trans perm).trans (List.perm_insertionSort _ l').symm)
    (List.sorted_insertionSort _ l) (List.sorted_insertionSort _ l')

private theorem headerKeys_eq_of_perm {headers headers' : StrDict}
    (same : headers.entries.Perm headers'.entries) : headerKeys headers = headerKeys headers' :=
  insertionSort_eq_of_perm (same.map Prod.fst)

private theorem canonicalRequest_eq_of_perm (method path : Str) {query query' headers headers' : StrDict}
    (payloadHash : Str) (sameQuery : query.entries.Perm query'.entries)
    (sameHeaders : headers.entries.Perm headers'.entries) :
    canonicalRequest method path query headers payloadHash =
      canonicalRequest method path query' headers' payloadHash := by
  have quoted : quotedQuery query = quotedQuery query' := insertionSort_eq_of_perm (sameQuery.map _)
  simp only [canonicalRequest, signedHeaders, quoted, headerKeys_eq_of_perm sameHeaders,
    StrDict.get?_eq_of_perm sameHeaders]

section Headers

variable (lower : Str → Str)

private theorem preAuthHeadersLower_entries {preAuthHeaders : StrDict}
    (distinct : (preAuthHeaders.keys.map lower).Nodup) :
    (preAuthHeadersLower lower preAuthHeaders).entries =
      preAuthHeaders.entries.map fun entry => (lower entry.1, collapse entry.2) :=
  StrDict.ofList_entries (by simpa [StrDict.keys, Function.comp_def] using distinct)

private theorem headers_perm {preAuthHeaders preAuthHeaders' : StrDict}
    (same : preAuthHeaders.entries.Perm preAuthHeaders'.entries)
    (distinct : (preAuthHeaders.keys.map lower).Nodup) (host payloadHash amzdate : Str) :
    (headers lower preAuthHeaders host payloadHash amzdate).entries.Perm
      (headers lower preAuthHeaders' host payloadHash amzdate).entries := by
  have distinct' : (preAuthHeaders'.keys.map lower).Nodup :=
    ((same.map Prod.fst).map lower).nodup_iff.mp distinct
  simp only [headers, StrDict.merge]
  refine StrDict.insertAll_perm ?_ _
  rw [preAuthHeadersLower_entries lower distinct, preAuthHeadersLower_entries lower distinct']
  exact same.map _

end Headers

/-- For maps with the same entries, no two pre-auth header names lower-casing to one, the signer
builds one canonical request and emits headers with the same entries. -/
theorem sigV4_same_entries (sha256 : Bytes → Bytes) (lower : Str → Str)
    (accessKeyId secretAccessKey : Str) {preAuthHeaders preAuthHeaders' : StrDict}
    (service region host method path : Str) {query query' : StrDict} (payloadHash : Str)
    (now : Clock) (sameQuery : query.entries.Perm query'.entries)
    (sameHeaders : preAuthHeaders.entries.Perm preAuthHeaders'.entries)
    (distinctNames : (preAuthHeaders.keys.map lower).Nodup) :
    canonicalRequest method path query
        (headers lower preAuthHeaders host payloadHash now.amzdate) payloadHash =
      canonicalRequest method path query'
        (headers lower preAuthHeaders' host payloadHash now.amzdate) payloadHash ∧
    signedHeaders (headers lower preAuthHeaders host payloadHash now.amzdate) =
      signedHeaders (headers lower preAuthHeaders' host payloadHash now.amzdate) ∧
    (awsSigV4Headers sha256 lower accessKeyId secretAccessKey preAuthHeaders service region host
        method path query payloadHash now).entries.Perm
      (awsSigV4Headers sha256 lower accessKeyId secretAccessKey preAuthHeaders' service region
        host method path query' payloadHash now).entries := by
  have merged := headers_perm lower sameHeaders distinctNames host payloadHash now.amzdate
  have canonical :=
    canonicalRequest_eq_of_perm method path payloadHash sameQuery merged
  have signed : signedHeaders (headers lower preAuthHeaders host payloadHash now.amzdate) =
      signedHeaders (headers lower preAuthHeaders' host payloadHash now.amzdate) :=
    congrArg ([';'].intercalate) (headerKeys_eq_of_perm merged)
  refine ⟨canonical, signed, ?_⟩
  simp only [awsSigV4Headers, canonical, signed]
  exact StrDict.insertAll_perm sameHeaders _

/-! ## Header names that differ only in case -/

/-- `str.lower()` on ASCII text. -/
def asciiLower (text : Str) : Str := text.map Char.toLower

/-- The query of a listing request, filled in the two orders. -/
def listQuery : StrDict := StrDict.ofList [("list-type".toList, "2".toList), ("prefix".toList, "a/".toList)]

/-- The same entries, stored the other way round. -/
def listQuerySwapped : StrDict :=
  StrDict.ofList [("prefix".toList, "a/".toList), ("list-type".toList, "2".toList)]

/-- Pre-auth headers of temporary credentials, filled in the two orders. -/
def tokenHeaders : StrDict :=
  StrDict.ofList [("X-Amz-Security-Token".toList, "token".toList), ("Content-Type".toList, "text/plain".toList)]

/-- The same entries, stored the other way round. -/
def tokenHeadersSwapped : StrDict :=
  StrDict.ofList [("Content-Type".toList, "text/plain".toList), ("X-Amz-Security-Token".toList, "token".toList)]

theorem tokenHeaders_sigV4 :
    listQuery.entries.Perm listQuerySwapped.entries ∧
      tokenHeaders.entries.Perm tokenHeadersSwapped.entries ∧
      (tokenHeaders.keys.map asciiLower).Nodup ∧
      (canonicalRequest "GET".toList "/bucket/".toList listQuery
          (headers asciiLower tokenHeaders "s3.amazonaws.com".toList "hash".toList
            "20240101T000000Z".toList) "hash".toList =
        canonicalRequest "GET".toList "/bucket/".toList listQuerySwapped
          (headers asciiLower tokenHeadersSwapped "s3.amazonaws.com".toList "hash".toList
            "20240101T000000Z".toList) "hash".toList ∧
      signedHeaders (headers asciiLower tokenHeaders "s3.amazonaws.com".toList "hash".toList
          "20240101T000000Z".toList) =
        signedHeaders (headers asciiLower tokenHeadersSwapped "s3.amazonaws.com".toList
          "hash".toList "20240101T000000Z".toList) ∧
      (awsSigV4Headers id asciiLower "id".toList "secret".toList tokenHeaders "s3".toList
          "eu-west-2".toList "s3.amazonaws.com".toList "GET".toList "/bucket/".toList listQuery
          "hash".toList ⟨"20240101T000000Z".toList, "20240101".toList⟩).entries.Perm
        (awsSigV4Headers id asciiLower "id".toList "secret".toList tokenHeadersSwapped "s3".toList
          "eu-west-2".toList "s3.amazonaws.com".toList "GET".toList "/bucket/".toList
          listQuerySwapped "hash".toList ⟨"20240101T000000Z".toList, "20240101".toList⟩).entries) :=
  ⟨by decide, by decide, by decide, sigV4_same_entries id asciiLower "id".toList "secret".toList
    "s3".toList "eu-west-2".toList "s3.amazonaws.com".toList "GET".toList "/bucket/".toList
    "hash".toList ⟨"20240101T000000Z".toList, "20240101".toList⟩ (by decide) (by decide)
    (by decide)⟩

/-- `X-A: 1` and `x-a: 2`, filled in the two orders: dicts with the same entries, whose names
lower-case to one name. -/
def caseVariantHeaders : StrDict :=
  StrDict.ofList [("X-A".toList, "1".toList), ("x-a".toList, "2".toList)]

/-- The same entries, stored the other way round. -/
def caseVariantHeadersSwapped : StrDict :=
  StrDict.ofList [("x-a".toList, "2".toList), ("X-A".toList, "1".toList)]

theorem caseVariantHeaders_canonicalRequest :
    caseVariantHeaders.entries.Perm caseVariantHeadersSwapped.entries ∧
      canonicalRequest "GET".toList "/bucket/key".toList StrDict.empty
          (headers asciiLower caseVariantHeaders "s3.amazonaws.com".toList "hash".toList
            "20240101T000000Z".toList) "hash".toList ≠
        canonicalRequest "GET".toList "/bucket/key".toList StrDict.empty
          (headers asciiLower caseVariantHeadersSwapped "s3.amazonaws.com".toList "hash".toList
            "20240101T000000Z".toList) "hash".toList := by
  decide

end AioftpS3.Request.Signer
