/-!
# Settings

Everything an engine is configured by: where templates are found and how their tags look, and
where rendered output is cached.
-/

namespace Stencil

/-- How templates are found and read. -/
structure TemplateSettings where
  /-- The directories of the templates, in order. -/
  dirs : List String := []
  /-- The extension added to names that have none. -/
  extension? : Option String := some "html"
  /-- The text in front of a tag. -/
  leftDelimiter : String := "\x7b"
  /-- The text behind a tag. -/
  rightDelimiter : String := "\x7d"
  /-- Whether the strings of a context are escaped. -/
  autoEscape : Bool := true
  /-- Whether tags without a value are removed. -/
  clearUnresolved : Bool := false
  deriving DecidableEq, Repr

/-- How output is cached. -/
structure CacheSettings where
  /-- Whether output is cached at all. -/
  enabled : Bool := true
  /-- The kind of cache. -/
  backend : String := "memory"
  /-- The directory of a cache made of files. -/
  location? : Option String := none
  deriving DecidableEq, Repr

/-- The settings of a program that renders templates. -/
structure Settings where
  /-- Whether the program runs for its developers. -/
  debug : Bool := true
  /-- The least level of messages that are logged. -/
  logLevel : String := "info"
  /-- The settings of templates. -/
  templates : TemplateSettings := {}
  /-- The settings of the cache. -/
  cache : CacheSettings := {}
  deriving DecidableEq, Repr

end Stencil
