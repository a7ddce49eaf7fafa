import Thock.Lib.TextScan

/-!
# Paths that sync

Which paths the desk may upload and the phone may write to, for text and for pictures.
Whether a path is in composed normal form is a parameter.
-/

namespace Thock.SyncCore

open TextScan

def syncableExtensions : List Text :=
  [['m', 'd'], ['t', 'x', 't'], ['t', 'o', 'm', 'l'], ['j', 's', 'o', 'n'], ['c', 's', 'v']]

def imageExtensions : List Text :=
  [['p', 'n', 'g'], ['j', 'p', 'g'], ['j', 'p', 'e', 'g'], ['g', 'i', 'f'], ['w', 'e', 'b', 'p']]

/-- Folders whose contents never sync. -/
def excludedPrefixes : List Text :=
  [".thock/history/".toList, ".thock/cache/".toList, ".thock/sync/".toList, ".git/".toList]

/-- The longest path the server accepts, in bytes of UTF-8. -/
def maxPathBytes : ℕ := 1024

def utf8Length (text : Text) : ℕ := (text.map Char.utf8Size).sum

def isControl (c : Char) : Bool := c.toNat < 32 || (127 ≤ c.toNat && c.toNat < 160)

def eqIgnoreAsciiCase (a b : Text) : Bool := a.map Char.toLower = b.map Char.toLower

/-- The extension of a path that passes every rule but the allow-list. -/
def wellFormedExtension (isNfc : Text → Bool) (path : Text) : Option Text :=
  if path.isEmpty || decide (utf8Length path > maxPathBytes) || !isNfc path then none
  else if path.head? = some '/' ∨ path.getLast? = some '/' ∨ '\\' ∈ path then none
  else if (path.splitOn '/').any fun segment => segment.isEmpty || segment = ['.'] || segment = ['.', '.'] then none
  else if path.any isControl then none
  else if excludedPrefixes.any fun folder => folder.isPrefixOf path then none
  else (splitLast ['.'] path).bind fun (stem, extension) =>
    if stem.isEmpty || stem.getLast? = some '/' then none else some extension

/-- Whether the desk may upload a path and the phone may write to it, as text. -/
def isSyncablePath (isNfc : Text → Bool) (path : Text) : Bool :=
  (wellFormedExtension isNfc path).any fun extension => syncableExtensions.any (eqIgnoreAsciiCase extension)

/-- Whether a path is a picture that syncs: an image extension inside the images folder. -/
def isSyncableImagePath (isNfc : Text → Bool) (imagesDir : Text) (path : Text) : Bool :=
  let imagesDir := (imagesDir.dropWhile (· = '/')).rdropWhile (· = '/')
  if imagesDir.isEmpty then false
  else (wellFormedExtension isNfc path).any fun extension =>
    ((stripPrefix imagesDir path).any fun rest => rest.head? = some '/') &&
      imageExtensions.any (eqIgnoreAsciiCase extension)

end Thock.SyncCore
