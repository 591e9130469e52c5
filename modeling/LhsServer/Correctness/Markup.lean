import LhsServer.Correctness.ParentLink
import LhsServer.Correctness.Stack
import LhsServer.Library.Html

/-!
# Markup in the generated pages

The not-found page and the index of a directory have texts in them that a client or the names of
files decide. They are inserted as they are, between tags and in attribute values.

- `NotFoundPage`: the not-found pages that `error_404` and `client_thread` generate for a target;
- `Listing`: a directory whose index is generated;
- `IndexRow.yields`, `Listing.yields`: the tags of an index, and when it has no others;
- `sameMarkup_iff`: the pages that have the same markup.
-/

namespace Lhs

open Bytes Http Middleware Html

/-! ## The not-found page -/

/-- The not-found page up to the target. -/
def notFoundHead : Bytes :=
  str "<html>  <head>    <title>404 Not Found</title>  </head>  <body>" ++
  str "    <h1>Sorry dude!</h1>    <p>The requested URL "

/-- The not-found page behind the target. -/
def notFoundTail : Bytes := str " was not found on this server.</p>  </body> </html>"

/-- The pieces of the not-found page. -/
def notFoundPieces (uri : Bytes) : List Piece :=
  [.fixed notFoundHead, .inserted (cstr uri), .fixed notFoundTail]

/-- The not-found pages that are generated for a target. -/
inductive NotFoundPage (mgz : Mgz) (mem : Memory) (fs : FileSystem) : Bytes → Bytes → Prop where
  /-- `error_404` gets a response without a code from below. -/
  | error404 {app_ : Option Http.Middleware} {env : Env} {response result : Response}
      (hbelow : (getResponse app_ env).value fs = .ok response) (hcode : response.code = 0)
      (hresult : (error404 mgz app_ env).value fs = .ok result) :
      NotFoundPage mgz mem fs env.request.uri result.body
  /-- `client_thread` has no app. -/
  | noApp {request : Request} {result : Response}
      (hresult : (Server.respond mgz mem none request).value fs = .ok result) :
      NotFoundPage mgz mem fs request.uri result.body
  /-- `client_thread` gets a response without a code from the app. -/
  | fallback {app : Http.Middleware} {request : Request} {response result : Response}
      (happ : (app (Env.ofRequest mem request)).value fs = .ok response)
      (hcode : response.code = 0)
      (hresult : (Server.respond mgz mem (some app) request).value fs = .ok result) :
      NotFoundPage mgz mem fs request.uri result.body

section NotFound

variable {mgz : Mgz} (hformat : mgz.FormatsAsPrintf)

include hformat

/-- The not-found page is its template with the target in the place of `%s`. -/
theorem format_defaultNotFound (uri : Bytes) :
    mgz.format defaultNotFound [.s (cstr uri)] = document (notFoundPieces uri) := by
  have hpage : defaultNotFound = notFoundHead ++ 37 :: 115 :: notFoundTail ∧
      37 ∉ notFoundHead ∧ 37 ∉ notFoundTail := by
    rw [defaultNotFound, notFoundHead, notFoundTail]
    repeat rw [str_ofList]
    decide +kernel
  rw [hformat _ _ (by simp), hpage.1, printf_append_s hpage.2.1, printf_of_not_mem hpage.2.2]
  simp [notFoundPieces, document, Piece.bytes]

/-- All senders of a not-found page send the same one. -/
theorem NotFoundPage.eq {mem : Memory} {fs : FileSystem} {uri page : Bytes}
    (h : NotFoundPage mgz mem fs uri page) : page = document (notFoundPieces uri) := by
  rw [← format_defaultNotFound hformat]
  cases h with
  | error404 hbelow hcode hresult =>
    rw [value_error404, hbelow] at hresult
    rw [← Except.ok.inj hresult, orNotFound_of_code_zero _ _ hcode, body_notFoundPage]
  | noApp hresult =>
    rw [← Except.ok.inj hresult]
    rfl
  | fallback happ hcode hresult =>
    rw [value_respond, happ] at hresult
    rw [← Except.ok.inj hresult, orNotFound_of_code_zero _ _ hcode, body_notFoundPage]

end NotFound

/-- The tags of the not-found page. -/
def notFoundTags : List Tag :=
  [⟨false, str "html", []⟩, ⟨false, str "head", []⟩, ⟨false, str "title", []⟩,
    ⟨true, str "title", []⟩, ⟨true, str "head", []⟩, ⟨false, str "body", []⟩,
    ⟨false, str "h1", []⟩, ⟨true, str "h1", []⟩, ⟨false, str "p", []⟩, ⟨true, str "p", []⟩,
    ⟨true, str "body", []⟩, ⟨true, str "html", []⟩]

/-- The template of the not-found page has the target in text. -/
theorem yields_notFoundPieces (uri : Bytes) :
    Yields .data (notFoundPieces uri) (Plain (cstr uri)) notFoundTags .data := by
  have hhead : Reads .data notFoundHead .data (notFoundTags.take 9) := by
    rw [notFoundHead]
    repeat rw [str_ofList]
    decide +kernel
  have htail : Reads .data notFoundTail .data (notFoundTags.drop 9) ∧
      notFoundTail ≠ [] ∧ opens notFoundTail = false := by
    rw [notFoundTail, str_ofList]
    decide +kernel
  have h := (Yields.fixed hhead).append (.text (cstr uri) htail.1 htail.2)
  rwa [true_and] at h

/-! ## The index of a directory -/

namespace Middleware.StaticFile

/-- The index up to the path in its title. -/
def indexTitle : Bytes :=
  str "<!DOCTYPE HTML PUBLIC \"-//W3C//DTD HTML 3.2 Final//EN\">" ++
  str "<html>  <head>    <title>Index of "

/-- The index from the path in its title to the one in its heading. -/
def indexHeading : Bytes := str "</title>  </head>  <body>    <h1>Index of "

/-- The index from the path in its heading to the first row. -/
def indexColumns : Bytes :=
  str "</h1>    <table border=\"0\" cellspacing=\"10px\">" ++
  str "      <tr><th>&nbsp;</th><th>Name</th><th>Last modified</th><th>Size</th></tr>" ++
  str "<tr><th colspan=\"4\"><hr></th></tr>"

/-- The pieces of the head of an index. -/
def headPieces (path : Bytes) : List Piece :=
  [.fixed indexTitle, .inserted path, .fixed indexHeading, .inserted path, .fixed indexColumns]

/-- The pieces of a row. -/
def IndexRow.pieces (row : IndexRow) : List Piece :=
  [.fixed (str "      <tr><td><img src=\""), .inserted row.image,
    .fixed (str "\" /></td><td><a href=\""), .inserted row.target,
    .fixed (str "\">"), .inserted row.name,
    .fixed (str "</a></td><td>"), .inserted row.date,
    .fixed (str "</td><td>"), .inserted row.size,
    .fixed (str "</td></tr>")]

section Format

variable {mgz : Mgz} (hformat : mgz.FormatsAsPrintf)

include hformat

/-- The head of an index is its template with the path in two places. -/
theorem format_indexHeader (path : Bytes) :
    mgz.format indexHeader [.s path, .s path] = document (headPieces path) := by
  have hheader : indexHeader =
      indexTitle ++ 37 :: 115 :: (indexHeading ++ 37 :: 115 :: indexColumns) ∧
      37 ∉ indexTitle ∧ 37 ∉ indexHeading ∧ 37 ∉ indexColumns := by
    rw [indexHeader, indexTitle, indexHeading, indexColumns]
    repeat rw [str_ofList]
    decide +kernel
  rw [hformat _ _ (by simp), hheader.1, printf_append_s hheader.2.1,
    printf_append_s hheader.2.2.1, printf_of_not_mem hheader.2.2.2]
  simp [headPieces, document, Piece.bytes]

/-- A row is its template with its five values. -/
theorem IndexRow.text_eq (row : IndexRow) : row.text mgz = document row.pieces := by
  have hrow : indexFile =
      str "      <tr><td><img src=\"" ++ 37 :: 115 :: (str "\" /></td><td><a href=\"" ++
        37 :: 115 :: (str "\">" ++ 37 :: 115 :: (str "</a></td><td>" ++ 37 :: 115 ::
        (str "</td><td>" ++ 37 :: 115 :: str "</td></tr>")))) := by
    rw [indexFile]
    repeat rw [str_ofList]
    decide +kernel
  rw [IndexRow.text, hformat _ _ (by simp), hrow, printf_append_s (by decide),
    printf_append_s (by decide), printf_append_s (by decide), printf_append_s (by decide),
    printf_append_s (by decide), printf_of_not_mem (by decide)]
  simp [IndexRow.pieces, document, Piece.bytes]

end Format

/-- What is inserted in a row is harmless. -/
structure IndexRow.IsPlain (row : IndexRow) : Prop where
  image : doubleQuote ∉ row.image
  target : doubleQuote ∉ row.target
  name : Plain row.name
  date : Plain row.date
  size : Plain row.size

/-- The tags of a row. -/
def rowTags : List Tag :=
  [⟨false, str "tr", []⟩, ⟨false, str "td", []⟩, ⟨false, str "img", [str "src"]⟩,
    ⟨true, str "td", []⟩, ⟨false, str "td", []⟩, ⟨false, str "a", [str "href"]⟩,
    ⟨true, str "a", []⟩, ⟨true, str "td", []⟩, ⟨false, str "td", []⟩, ⟨true, str "td", []⟩,
    ⟨false, str "td", []⟩, ⟨true, str "td", []⟩, ⟨true, str "tr", []⟩]

/-- The template of a row has its name in text and its url in an attribute. -/
theorem IndexRow.yields (row : IndexRow) : Yields .data row.pieces row.IsPlain rowTags .data := by
  have himage : Reads .data (str "      <tr><td><img src=\"")
      (.attributeValue ⟨false, str "img", [str "src"]⟩ (some doubleQuote)) (rowTags.take 2) := by
    decide +kernel
  have htarget : Reads (.attributeValue ⟨false, str "img", [str "src"]⟩ (some doubleQuote))
      (str "\" /></td><td><a href=\"")
      (.attributeValue ⟨false, str "a", [str "href"]⟩ (some doubleQuote))
      ((rowTags.drop 2).take 3) := by
    decide +kernel
  have hname : Reads (.attributeValue ⟨false, str "a", [str "href"]⟩ (some doubleQuote))
      (str "\">") .data ((rowTags.drop 5).take 1) := by decide +kernel
  have hdate : Reads .data (str "</a></td><td>") .data ((rowTags.drop 6).take 3) := by
    decide +kernel
  have hsize : Reads .data (str "</td><td>") .data ((rowTags.drop 9).take 2) := by decide +kernel
  have hend : Reads .data (str "</td></tr>") .data (rowTags.drop 11) := by decide +kernel
  have h := (Yields.fixed himage).append <| (Yields.value row.image htarget).append <|
    (Yields.value row.target hname).append <|
    (Yields.text row.name hdate (by decide)).append <|
    (Yields.text row.date hsize (by decide)).append (.text row.size hend (by decide))
  have hplain : row.IsPlain ↔ True ∧ doubleQuote ∉ row.image ∧ doubleQuote ∉ row.target ∧
      Plain row.name ∧ Plain row.date ∧ Plain row.size := by
    constructor
    · intro h
      exact ⟨trivial, h.image, h.target, h.name, h.date, h.size⟩
    · rintro ⟨-, himage, htarget, hname, hdate, hsize⟩
      exact ⟨himage, htarget, hname, hdate, hsize⟩
  rwa [← propext hplain] at h

/-- The tags of the head of an index. -/
def headTags : List Tag :=
  [⟨false, str "html", []⟩, ⟨false, str "head", []⟩, ⟨false, str "title", []⟩,
    ⟨true, str "title", []⟩, ⟨true, str "head", []⟩, ⟨false, str "body", []⟩,
    ⟨false, str "h1", []⟩, ⟨true, str "h1", []⟩,
    ⟨false, str "table", [str "border", str "cellspacing"]⟩, ⟨false, str "tr", []⟩,
    ⟨false, str "th", []⟩, ⟨true, str "th", []⟩, ⟨false, str "th", []⟩, ⟨true, str "th", []⟩,
    ⟨false, str "th", []⟩, ⟨true, str "th", []⟩, ⟨false, str "th", []⟩, ⟨true, str "th", []⟩,
    ⟨true, str "tr", []⟩, ⟨false, str "tr", []⟩, ⟨false, str "th", [str "colspan"]⟩,
    ⟨false, str "hr", []⟩, ⟨true, str "th", []⟩, ⟨true, str "tr", []⟩]

/-- The template of the head has the path in text twice. -/
theorem yields_headPieces (path : Bytes) :
    Yields .data (headPieces path) (Plain path) headTags .data := by
  have htitle : Reads .data indexTitle (.rawText (str "title")) (headTags.take 3) := by
    rw [indexTitle]
    repeat rw [str_ofList]
    decide +kernel
  have hheading : Reads (.rawText (str "title")) indexHeading .data ((headTags.drop 3).take 4) ∧
      indexHeading ≠ [] ∧ opens indexHeading = false := by
    rw [indexHeading, str_ofList]
    decide +kernel
  have hcolumns : Reads .data indexColumns .data (headTags.drop 7) ∧
      indexColumns ≠ [] ∧ opens indexColumns = false := by
    rw [indexColumns]
    repeat rw [str_ofList]
    decide +kernel
  have h := (Yields.fixed htitle).append
    (.rawText hheading.1 hheading.2 (.text path hcolumns.1 hcolumns.2) id)
  rwa [true_and] at h

/-- The tags of the end of an index. -/
def footerTags : List Tag :=
  [⟨false, str "tr", []⟩, ⟨false, str "th", [str "colspan"]⟩, ⟨false, str "hr", []⟩,
    ⟨true, str "th", []⟩, ⟨true, str "tr", []⟩, ⟨false, str "tr", []⟩,
    ⟨false, str "td", [str "colspan"]⟩, ⟨false, str "small", []⟩, ⟨true, str "small", []⟩,
    ⟨true, str "td", []⟩, ⟨true, str "tr", []⟩, ⟨true, str "table", []⟩, ⟨true, str "body", []⟩,
    ⟨true, str "html", []⟩]

/-- The footer has no values in it. -/
theorem reads_indexFooter : Reads .data indexFooter .data footerTags := by
  rw [indexFooter, lhsHost]
  repeat rw [str_ofList]
  decide +kernel

/-- A directory whose index is generated for a request. -/
structure Listing where
  layer : StaticFile
  fs : FileSystem
  request : Request
  entries : List EntryName
  opened : fs.opendir (cstr (layer.filenameOf request)) = some entries

namespace Listing

variable (d : Listing)

/-- The path of the directory behind the root. -/
def path : Bytes := trimmedPath d.request

/-- The entries that have a row. -/
def listed : List EntryName := d.entries.filter isListed

variable (mgz : Mgz) (mem : Memory)

/-- The rows of the index. -/
def indexRows : List IndexRow := d.layer.rows mgz mem d.fs d.request d.entries

/-- The pieces of the index. -/
def pieces : List Piece :=
  headPieces (cstr d.path) ++ (d.indexRows mgz mem).flatMap IndexRow.pieces ++
    [.fixed indexFooter]

/-- The strings that are inserted in the index: no text has the beginning of markup in it, and no
target of a link a quotation mark. -/
structure IsPlain : Prop where
  path : Plain (cstr d.path)
  parent : d.path ≠ [] → doubleQuote ∉ cstr (parentTarget d.path)
  names : ∀ entry ∈ d.listed, Plain entry.1
  targets : ∀ entry ∈ d.listed, doubleQuote ∉ cstr (d.path ++ slash :: entry.1)

variable {mgz}

/-- The index of a listed directory is a document of these pieces. -/
theorem value_getDirectoryContent (hformat : mgz.FormatsAsPrintf) :
    (d.layer.getDirectoryContent mgz mem (d.layer.filenameOf d.request)).value d.fs =
      .ok (document (d.pieces mgz mem)) := by
  have hrows : ∀ rows : List IndexRow, rows.flatMap (IndexRow.text mgz) =
      document (rows.flatMap IndexRow.pieces) := by
    intro rows
    rw [document, List.flatMap_assoc]
    congr 1
    funext row
    exact row.text_eq hformat
  rw [value_getDirectoryContent_rows _ _ _ _ d.opened, hrows, format_indexHeader hformat]
  simp [pieces, document, path, indexRows, Piece.bytes]

/-- The images end no attribute. -/
theorem doubleQuote_not_mem_images : doubleQuote ∉ folderImage ∧ doubleQuote ∉ fileImage := by
  rw [folderImage, fileImage]
  repeat rw [str_ofList]
  decide +kernel

/-- A date is plain text. -/
theorem plain_strftime (t : Calendar.DateTime) : Plain (Calendar.strftime t) := by
  apply plain_of_lt_not_mem
  intro hmem
  have hlt := Calendar.mem_strftime hmem
  revert hlt
  decide

/-- So is a size. -/
theorem lt_not_mem_kilobytes (hkilobytes : mgz.FormatsKilobytes) (n : ℤ) :
    lt ∉ mgz.format (str "%.1fk") [.kilobytes n] := by
  intro hmem
  have hlt := hkilobytes n lt hmem
  revert hlt
  decide

/-- What is inserted in the row of an entry besides its name and the target of its link is
harmless. -/
theorem isPlain_rowOf_iff (hkilobytes : mgz.FormatsKilobytes) (entry : EntryName) :
    (d.layer.rowOf mgz mem d.fs (d.layer.filenameOf d.request) entry).IsPlain ↔
      Plain entry.1 ∧ doubleQuote ∉ cstr (d.path ++ slash :: entry.1) := by
  have hcstr : ∀ {c s}, c ∈ cstr s → c ∈ s := fun h => (List.takeWhile_prefix _).mem h
  constructor
  · rintro ⟨-, htarget, hname, -, -⟩
    rw [rowOf, cstr_of_nul_not_mem entry.2.2.2] at hname
    rw [rowOf, hrefOf_filenameOf] at htarget
    exact ⟨hname, htarget⟩
  · rintro ⟨hname, htarget⟩
    refine ⟨fun himage => ?_, ?_, ?_, ?_, ?_⟩
    · have himage := hcstr himage
      split at himage
      · exact doubleQuote_not_mem_images.1 himage
      · exact doubleQuote_not_mem_images.2 himage
    · rwa [rowOf, hrefOf_filenameOf]
    · rwa [rowOf, cstr_of_nul_not_mem entry.2.2.2]
    · exact plain_strftime _
    · refine plain_of_lt_not_mem fun hlt => ?_
      have hlt := hcstr hlt
      split at hlt
      · exact absurd hlt (by decide)
      · exact lt_not_mem_kilobytes hkilobytes _ hlt

/-- The row of the parent can end its attribute only by a quote in the path. -/
theorem isPlain_parentRows_iff :
    (∀ row ∈ parentRows d.request, row.IsPlain) ↔
      (d.path ≠ [] → doubleQuote ∉ cstr (parentTarget d.path)) := by
  have hplain : Plain (str "..") ∧ Plain (str "-") := by decide
  rw [parentRows, path]
  split
  · rename_i hpath
    simp [hpath]
  · rename_i hpath
    rw [List.forall_mem_singleton]
    constructor
    · intro h _
      exact h.target
    · intro h
      exact ⟨doubleQuote_not_mem_images.1, h hpath, hplain.1, hplain.2, hplain.2⟩

/-- The template of a whole index: its head, a row for each entry, its footer. -/
theorem yields (hkilobytes : mgz.FormatsKilobytes) :
    Yields .data (d.pieces mgz mem) d.IsPlain
      (headTags ++ (List.replicate (d.indexRows mgz mem).length rowTags).flatten ++ footerTags)
      .data := by
  have h := ((yields_headPieces (cstr d.path)).append
    (.flatMap IndexRow.yields (d.indexRows mgz mem))).append (.fixed reads_indexFooter)
  have hplain : d.IsPlain ↔ (Plain (cstr d.path) ∧
      ∀ row ∈ d.indexRows mgz mem, row.IsPlain) ∧ True := by
    have hrows : (∀ row ∈ d.indexRows mgz mem, row.IsPlain) ↔
        (d.path ≠ [] → doubleQuote ∉ cstr (parentTarget d.path)) ∧
          ∀ entry ∈ d.listed, Plain entry.1 ∧ doubleQuote ∉ cstr (d.path ++ slash :: entry.1) := by
      rw [indexRows, rows, List.forall_mem_append, isPlain_parentRows_iff, List.forall_mem_map]
      simp only [isPlain_rowOf_iff d mem hkilobytes]
      rfl
    rw [hrows]
    constructor
    · rintro ⟨hpath, hparent, hnames, htargets⟩
      exact ⟨⟨hpath, hparent, fun entry h => ⟨hnames entry h, htargets entry h⟩⟩, trivial⟩
    · rintro ⟨⟨hpath, hparent, hentries⟩, -⟩
      exact ⟨hpath, hparent, fun entry h => (hentries entry h).1,
        fun entry h => (hentries entry h).2⟩
  rwa [← propext hplain] at h

/-- There is one row for each listed entry, and one for the parent. -/
theorem length_indexRows :
    (d.indexRows mgz mem).length = (if d.path = [] then 0 else 1) + d.listed.length := by
  rw [indexRows, rows, List.length_append, List.length_map, parentRows, path, listed]
  split <;> rfl

/-- The rows of two indexes have the same tags when they are equally many. -/
theorem flatten_replicate_rowTags_inj {m n : ℕ} :
    (List.replicate m rowTags).flatten = (List.replicate n rowTags).flatten ↔ m = n := by
  constructor
  · intro h
    have hlength : m * 13 = n * 13 := by
      simpa [List.length_flatten, rowTags] using congrArg List.length h
    omega
  · rintro rfl
    rfl

/-- Two indexes with equally many entries have the same markup when both directories are the root
or none is, and no string in them is markup. -/
theorem sameMarkup_pieces_iff (hkilobytes : mgz.FormatsKilobytes) (mem' : Memory) (d' : Listing)
    (h : d.listed.length = d'.listed.length) :
    SameMarkup (d.pieces mgz mem) (d'.pieces mgz mem') ↔
      (d.path = [] ↔ d'.path = []) ∧ d.IsPlain ∧ d'.IsPlain := by
  have hrows : (d.indexRows mgz mem).length = (d'.indexRows mgz mem').length ↔
      (d.path = [] ↔ d'.path = []) := by
    rw [length_indexRows, length_indexRows, h, Nat.add_right_cancel_iff]
    by_cases hpath : d.path = [] <;> by_cases hpath' : d'.path = [] <;> simp [hpath, hpath']
  rw [(d.yields mem hkilobytes).sameMarkup_iff (d'.yields mem' hkilobytes),
    List.append_left_inj, List.append_right_inj, flatten_replicate_rowTags_inj, hrows]

end Listing

end Middleware.StaticFile

/-! ## Two runs -/

open StaticFile

/-- The pages are made of pieces, in which the strings are inserted as they are. The not-found pages
for two targets have the same markup exactly when no `<` in a target begins anything; and so do the
indexes of two directories with equally many entries exactly when no `<` in a path or a name begins
anything, no target of a link has a quotation mark in it, and both directories are the root or none
is. -/
theorem insertsNoMarkup_iff {mgz : Mgz} (hformat : mgz.FormatsAsPrintf)
    (hkilobytes : mgz.FormatsKilobytes) (mem mem' : Memory) :
    (∀ fs fs' uri uri' page page', NotFoundPage mgz mem fs uri page →
      NotFoundPage mgz mem' fs' uri' page' →
      page = document (notFoundPieces uri) ∧ page' = document (notFoundPieces uri') ∧
        (SameMarkup (notFoundPieces uri) (notFoundPieces uri') ↔
          Plain (cstr uri) ∧ Plain (cstr uri'))) ∧
    (∀ d d' : Listing, d.listed.length = d'.listed.length →
      (d.layer.getDirectoryContent mgz mem (d.layer.filenameOf d.request)).value d.fs =
          .ok (document (d.pieces mgz mem)) ∧
        (d'.layer.getDirectoryContent mgz mem' (d'.layer.filenameOf d'.request)).value d'.fs =
          .ok (document (d'.pieces mgz mem')) ∧
        (SameMarkup (d.pieces mgz mem) (d'.pieces mgz mem') ↔
          (d.path = [] ↔ d'.path = []) ∧ d.IsPlain ∧ d'.IsPlain)) := by
  constructor
  · intro fs fs' uri uri' page page' hpage hpage'
    refine ⟨hpage.eq hformat, hpage'.eq hformat, ?_⟩
    rw [(yields_notFoundPieces uri).sameMarkup_iff (yields_notFoundPieces uri')]
    exact and_iff_right rfl
  · intro d d' h
    exact ⟨d.value_getDirectoryContent mem hformat, d'.value_getDirectoryContent mem' hformat,
      d.sameMarkup_pieces_iff mem hkilobytes mem' d' h⟩

/-- The root with one file in it. -/
def oneFile (entry : EntryName) : Listing where
  layer := exploring
  fs := oneEntry entry (str "hello")
  request := .get (str "/") rfl
  entries := [entry]
  opened := by
    rw [filenameOf_exploring rfl]
    rfl

/-- An index with one file is plain when the name of the file is. -/
theorem isPlain_oneFile_iff {entry : EntryName} (hlisted : isListed entry) :
    (oneFile entry).IsPlain ↔ Plain entry.1 ∧ doubleQuote ∉ entry.1 := by
  have hlist : (oneFile entry).listed = [entry] := List.filter_cons_of_pos hlisted
  have htarget : cstr (slash :: entry.1) = slash :: entry.1 := by
    have hnul : NUL ∉ slash :: entry.1 := by
      rw [List.mem_cons, not_or]
      exact ⟨by decide, entry.2.2.2⟩
    exact cstr_of_nul_not_mem hnul
  have hquote : doubleQuote ∉ (oneFile entry).path ++ slash :: entry.1 ↔ doubleQuote ∉ entry.1 := by
    show doubleQuote ∉ slash :: entry.1 ↔ _
    rw [List.mem_cons, not_or]
    exact and_iff_right (by decide)
  constructor
  · rintro ⟨-, -, hnames, htargets⟩
    rw [hlist, List.forall_mem_singleton] at hnames htargets
    exact ⟨hnames, hquote.mp (htarget ▸ htargets)⟩
  · rintro ⟨hname, hentry⟩
    refine ⟨List.isChain_nil, fun hpath => absurd rfl hpath, ?_, ?_⟩
    · rwa [hlist, List.forall_mem_singleton]
    · rw [hlist, List.forall_mem_singleton]
      show doubleQuote ∉ cstr (slash :: entry.1)
      rw [htarget]
      exact hquote.mpr hentry

/-- A request for a path that is nowhere gets the not-found page. -/
theorem notFoundPage_get (mgz : Mgz) (mem : Memory) (fs : FileSystem) (path : Bytes)
    (hpath : path.head? = some slash) :
    NotFoundPage mgz mem fs path (mgz.format defaultNotFound [.s (cstr path)]) := by
  show NotFoundPage mgz mem fs (Request.get path hpath).uri _
  exact .noApp rfl

/-- Texts with characters that have a meaning in markup elsewhere. -/
theorem insertsNoMarkup_sample :
    SameMarkup (notFoundPieces (str "/a")) (notFoundPieces (str "/1<2>\"&")) ∧
      SameMarkup ((oneFile ⟨str "a.txt", by decide⟩).pieces .sizing .zero)
        ((oneFile ⟨str "1 < 2 & '>'", by decide⟩).pieces .sizing .zero) := by
  have h := insertsNoMarkup_iff Mgz.sizing_formatsAsPrintf Mgz.sizing_formatsKilobytes .zero .zero
  constructor
  · have hpage := notFoundPage_get .sizing .zero (oneEntry ⟨str "a", by decide⟩ [])
    exact (h.1 _ _ _ _ _ _ (hpage (str "/a") rfl) (hpage (str "/1<2>\"&") rfl)).2.2.mpr (by decide)
  · refine (h.2 (oneFile ⟨str "a.txt", by decide⟩) (oneFile ⟨str "1 < 2 & '>'", by decide⟩)
      rfl).2.2.mpr ⟨Iff.rfl, ?_, ?_⟩
    · exact (isPlain_oneFile_iff (by decide)).mpr (by decide)
    · exact (isPlain_oneFile_iff (by decide)).mpr (by decide)

/-- A directory without entries, the root or another. -/
def emptyListing (path : Bytes) (hpath : path.head? = some slash) : Listing where
  layer := exploring
  fs := { emptyDirectory [] with opendir := fun _ => some [] }
  request := .get path hpath
  entries := []
  opened := rfl

/-- A `<b>` in a target or in the name of a file is a tag, and a quotation mark in the name ends the
target of its link. The index of the root has no row for a parent directory. -/
theorem insertsNoMarkup_fails :
    (∃ page page' : Bytes,
      NotFoundPage .plain .zero (emptyDirectory []) (str "/a") page ∧
      NotFoundPage .plain .zero (emptyDirectory []) (str "/<b>") page' ∧
      tags .data page [] = notFoundTags ∧
      tags .data page' [] =
        notFoundTags.take 9 ++ ⟨false, str "b", []⟩ :: notFoundTags.drop 9) ∧
    ¬SameMarkup ((oneFile ⟨str "a", by decide⟩).pieces .sizing .zero)
      ((oneFile ⟨str "<b>", by decide⟩).pieces .sizing .zero) ∧
    ¬SameMarkup ((oneFile ⟨str "a", by decide⟩).pieces .sizing .zero)
      ((oneFile ⟨str "\"id=x", by decide⟩).pieces .sizing .zero) ∧
    ¬SameMarkup ((emptyListing (str "/") rfl).pieces .sizing .zero)
      ((emptyListing (str "/a") rfl).pieces .sizing .zero) := by
  have hpage := notFoundPage_get .plain .zero (emptyDirectory [])
  have hfile : ∀ entry : EntryName, isListed entry → ¬(Plain entry.1 ∧ doubleQuote ∉ entry.1) →
      ¬SameMarkup ((oneFile ⟨str "a", by decide⟩).pieces .sizing .zero)
        ((oneFile entry).pieces .sizing .zero) := by
    intro entry hlisted hplain h
    have hlength : (oneFile ⟨str "a", by decide⟩).listed.length =
        (oneFile entry).listed.length := by
      show 1 = ([entry].filter isListed).length
      rw [List.filter_cons_of_pos hlisted]
      rfl
    have hboth := (Listing.sameMarkup_pieces_iff _ _ Mgz.sizing_formatsKilobytes _ _ hlength).mp h
    exact hplain ((isPlain_oneFile_iff hlisted).mp hboth.2.2)
  refine ⟨⟨_, _, hpage (str "/a") rfl, hpage (str "/<b>") rfl, ?_, ?_⟩, ?_, ?_, ?_⟩
  · rw [format_defaultNotFound Mgz.plain_formatsAsPrintf, notFoundPieces, notFoundHead,
      notFoundTail]
    repeat rw [str_ofList]
    decide +kernel
  · rw [format_defaultNotFound Mgz.plain_formatsAsPrintf, notFoundPieces, notFoundHead,
      notFoundTail]
    repeat rw [str_ofList]
    decide +kernel
  · exact hfile _ (by decide) (by decide)
  · exact hfile _ (by decide) (by decide)
  · intro h
    have hlength : (emptyListing (str "/") rfl).listed.length =
        (emptyListing (str "/a") rfl).listed.length := rfl
    have hboth := (Listing.sameMarkup_pieces_iff _ _ Mgz.sizing_formatsKilobytes _ _ hlength).mp h
    exact absurd hboth.1 (by decide)

end Lhs
