import AioftpS3.Request.Signer

/-!
`_s3_request`: the URL a request goes to. The path goes out as it is signed, `quote(full_path,
safe='/~')`, and the query as `urlencode(query, safe='~', quote_via=quote)`: each pair encoded as
the canonical request encodes it, in the dict's order. No encoded key or value holds `'&'` or
`'='`, so the query string splits at them back into the encoded pairs.
-/

set_option autoImplicit false
set_option relaxedAutoImplicit false

namespace AioftpS3.Request.Url

open AioftpS3.PosixPath AioftpS3.Request.Dict AioftpS3.Request.Signer

/-- One `key=value` pair of a query string, both percent-encoded with `safe='~'`. -/
def queryPair (key value : Str) : Str := quote ['~'] key ++ ['='] ++ quote ['~'] value

/-- `urllib.parse.urlencode(query, safe='~', quote_via=urllib.parse.quote)`: the pairs in the
dict's order, joined by `'&'`. -/
def urlencode (query : StrDict) : Str :=
  ['&'].intercalate (query.entries.map fun entry => queryPair entry.1 entry.2)

/-- The `url` of `_s3_request(context, method, path, query, ...)` for the bucket `name` at
`host`; `full_path` is what `_aws_sig_v4_headers` signs. -/
def requestUrl (host name path : Str) (query : StrDict) : Str :=
  let fullPath := ['/'] ++ name ++ path
  let querystring := urlencode query
  let encodedPath := quote ['/', '~'] fullPath
  "https://".toList ++ host ++ encodedPath ++
    (if querystring = [] then [] else ['?'] ++ querystring)

/-! ## What percent-encoding leaves out -/

/-- A hexadecimal digit is one of the sixteen. -/
theorem hexDigit_mem (n : Nat) : hexDigit n ∈ "0123456789abcdef".toList := by
  rw [hexDigit, List.getD_eq_getElem?_getD]
  cases found : "0123456789abcdef".toList[n]? with
  | none => decide
  | some digit => exact List.mem_iff_getElem?.mpr ⟨n, found⟩

/-- `quote(text, safe='~')` never puts out `'&'` or `'='`: neither is always safe nor in `safe`,
and an escape is `'%'` and two upper-case hexadecimal digits. -/
theorem separators_not_mem_quote (text : Str) :
    ∀ c ∈ quote ['~'] text, c ≠ '&' ∧ c ≠ '=' := by
  intro c mem
  obtain ⟨byte, -, put⟩ := List.mem_flatMap.mp mem
  split at put
  · rename_i kept
    obtain rfl := List.mem_singleton.mp put
    constructor <;> intro same <;> simp [alwaysSafe, same] at kept
  · simp only [List.mem_cons, List.map_cons, List.map_nil, List.not_mem_nil, or_false] at put
    have upper : ∀ digit ∈ "0123456789abcdef".toList,
        digit.toUpper ≠ '&' ∧ digit.toUpper ≠ '=' := by
      decide
    rcases put with rfl | rfl | rfl
    · decide
    · exact upper _ (hexDigit_mem _)
    · exact upper _ (hexDigit_mem _)

/-- A pair splits back at its `'='` into its encoded key and value. -/
theorem splitOn_queryPair (key value : Str) :
    (queryPair key value).splitOn '=' = [quote ['~'] key, quote ['~'] value] := by
  have joined : queryPair key value = ['='].intercalate [quote ['~'] key, quote ['~'] value] := by
    simp [queryPair, List.intercalate]
  rw [joined, List.splitOn_intercalate _ _ (fun part mem equals => ?_) (List.cons_ne_nil _ _)]
  simp only [List.mem_cons, List.mem_singleton, List.not_mem_nil, or_false] at mem
  rcases mem with rfl | rfl <;> exact (separators_not_mem_quote _ _ equals).2 rfl

/-- The query string splits at its `'&'`s into its pairs. -/
theorem splitOn_urlencode {query : StrDict} (nonempty : query.entries ≠ []) :
    (urlencode query).splitOn '&' = query.entries.map fun entry => queryPair entry.1 entry.2 := by
  refine List.splitOn_intercalate _ _ (fun part mem amp => ?_) (by simpa using nonempty)
  obtain ⟨entry, -, rfl⟩ := List.mem_map.mp mem
  rcases List.mem_append.mp amp with inKey | inValue
  · rcases List.mem_append.mp inKey with inKey | equals
    · exact (separators_not_mem_quote _ _ inKey).1 rfl
    · simp at equals
  · exact (separators_not_mem_quote _ _ inValue).1 rfl

end AioftpS3.Request.Url
