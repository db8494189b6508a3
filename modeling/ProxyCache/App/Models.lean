import ProxyCache.Python.Json

/-!
# Files and projects (`app/models.py`)

The fields hold whatever the document held: nothing checks their types.
-/

namespace ProxyCache.App

open ProxyCache.Python

structure File where
  filename : Json
  url : Json
  hashes : Json := .dict []
  requiresPython : Json := .null
  yanked : Json := .null
  distInfoMetadata : Json := .null
  coreMetadata : Json := .null
  size : Json := .null
  uploadTime : Json := .null

structure Project where
  name : Json
  files : List File := []

end ProxyCache.App
