import PageTree.BTree.Basic
import PageTree.BTree.Entries
import PageTree.BTree.Read
import PageTree.BTree.Split
import PageTree.BTree.Write
import PageTree.Bisection
import PageTree.Client.Basic
import PageTree.Client.Cursor
import PageTree.Client.OrderedMap
import PageTree.Client.PlaneMap
import PageTree.Client.Register
import PageTree.Client.Retry
import PageTree.Client.Trial
import PageTree.Commit
import PageTree.Cursor.Basic
import PageTree.Cursor.Policy
import PageTree.Duration
import PageTree.Error
import PageTree.Folding
import PageTree.Json.Basic
import PageTree.Json.Parser
import PageTree.Mutation
import PageTree.Page.Basic
import PageTree.Page.Header
import PageTree.Page.Kind
import PageTree.Page.Parser
import PageTree.Page.Summary
import PageTree.Proofs.BTree.Balance
import PageTree.Proofs.BTree.Change
import PageTree.Proofs.BTree.Holds
import PageTree.Proofs.BTree.Refinement
import PageTree.Proofs.BTree.Split
import PageTree.Proofs.Chart
import PageTree.Proofs.Commit.Counterpart
import PageTree.Proofs.Commit.Draft
import PageTree.Proofs.Commit.Printing
import PageTree.Proofs.Commit.Rebase
import PageTree.Proofs.Commit.Write
import PageTree.Proofs.Commit.Zones
import PageTree.Proofs.Contents
import PageTree.Proofs.Cursor.Calls
import PageTree.Proofs.Cursor.Gaps
import PageTree.Proofs.Cursor.Index
import PageTree.Proofs.Cursor.Stands
import PageTree.Proofs.Cursor.Tours
import PageTree.Proofs.Cursor.Walk
import PageTree.Proofs.Effect
import PageTree.Proofs.Listing
import PageTree.Proofs.Loading
import PageTree.Proofs.Memory
import PageTree.Proofs.Operations
import PageTree.Proofs.Pages
import PageTree.Proofs.Posts.Evacuation
import PageTree.Proofs.Posts.Least
import PageTree.Proofs.Posts.Turns
import PageTree.Proofs.Posts.Unread
import PageTree.Proofs.QTree.Balance
import PageTree.Proofs.QTree.Change
import PageTree.Proofs.QTree.Changes
import PageTree.Proofs.QTree.Holds
import PageTree.Proofs.QTree.Lookup
import PageTree.Proofs.QTree.Moves
import PageTree.Proofs.QTree.Plane
import PageTree.Proofs.QTree.Refinement
import PageTree.Proofs.QTree.Shape
import PageTree.Proofs.QTree.Slots
import PageTree.Proofs.QTree.Split
import PageTree.Proofs.QTree.Terrain
import PageTree.Proofs.Rebuild
import PageTree.Proofs.References
import PageTree.Proofs.Softening
import PageTree.Proofs.System.Coherence
import PageTree.Proofs.System.Filing
import PageTree.Proofs.System.Preservation
import PageTree.Proofs.System.Races
import PageTree.Proofs.System.Replay
import PageTree.Proofs.System.Steps
import PageTree.Proofs.Text.Headers
import PageTree.Proofs.Text.Pages
import PageTree.Proofs.Text.Spelling
import PageTree.Proofs.Text.Values
import PageTree.Proofs.Tiles
import PageTree.Proofs.Trees
import PageTree.Proofs.ValueOrder
import PageTree.QTree.Basic
import PageTree.QTree.Read
import PageTree.QTree.Slots
import PageTree.QTree.Split
import PageTree.QTree.Write
import PageTree.Ref.Basic
import PageTree.Ref.Diff
import PageTree.Ref.Load
import PageTree.Ref.Outline
import PageTree.Ref.Rebuild
import PageTree.Session.Basic
import PageTree.Session.Change
import PageTree.Session.Walk
import PageTree.Settings.Basic
import PageTree.Settings.Json
import PageTree.Store.Basic
import PageTree.Store.Reclaim
import PageTree.Store.Write
import PageTree.Store.Zones
import PageTree.Text.Basic
import PageTree.Text.Digits
import PageTree.Text.Reader
import PageTree.Tile
import PageTree.Timestamp
import PageTree.Tree.Basic
import PageTree.Tree.Seed
import PageTree.Trunk
import PageTree.UTree
import PageTree.Value.Basic
import PageTree.Value.Json
import PageTree.Value.Order
import PageTree.Value.Parser
import PageTree.Value.Printer
import PageTree.Proofs.Posts.Listings
import PageTree.Proofs.Posts.Overlaps
import PageTree.Proofs.Posts.Reads
import PageTree.Proofs.BTree.Neighbours
import PageTree.Proofs.InMemory.Pages
import PageTree.Proofs.InMemory.Rebuild
import PageTree.Proofs.BTree.InMemory
import PageTree.Proofs.BTree.Shape
import PageTree.Proofs.Cache.Excerpt
import PageTree.Proofs.Cache.Loaded
import PageTree.Proofs.Text.Refusals
import PageTree.Proofs.Cache.Answers
import PageTree.Proofs.Cursor.Together
import PageTree.Proofs.Cache.Shelves
import PageTree.Proofs.Client.Retries
import PageTree.Proofs.System.Lives
import PageTree.Proofs.System.Settling
import PageTree.Proofs.Folds
import PageTree.Proofs.System.Folds
import PageTree.Proofs.System.Anchored
import PageTree.Proofs.Cursor.Grounded
import PageTree.Proofs.System.Strength
import PageTree.Proofs.Surveys
import PageTree.Proofs.System.Sizes
import PageTree.Proofs.Client.Replica
import PageTree.Proofs.Client.Observers
import PageTree.Proofs.Cursor.Culls
import PageTree.Proofs.QTree.Regions
import PageTree.Proofs.Text.Lines
import PageTree.Proofs.Commit.Layout
import PageTree.Proofs.Client.Scans
import PageTree.Proofs.Cursor.Mirrors
import PageTree.Proofs.BTree.Unchanged
import PageTree.Proofs.Client.Unchanged
import PageTree.Proofs.Throughout
import PageTree.Proofs.BTree.Provenance
import PageTree.Proofs.BTree.Derived
import PageTree.Proofs.Cursor.Deltas
import PageTree.Proofs.Cursor.Summaries
import PageTree.Proofs.Client.Clearing
import PageTree.Proofs.Conduct.Basic
import PageTree.Proofs.Conduct.Trees
import PageTree.Proofs.Conduct.Cursors
import PageTree.Proofs.Conduct.Naming
import PageTree.Proofs.Conduct.Commits
import PageTree.Proofs.Conduct.Residing
import PageTree.Proofs.Sparing
import PageTree.Proofs.Client.Commits
import PageTree.Proofs.Client.Failures
import PageTree.Proofs.Pictures.Basic
import PageTree.Proofs.Pictures.Loading
import PageTree.Proofs.Pictures.Rebuild
import PageTree.Proofs.Pictures.Searches
import PageTree.Proofs.Pictures.Walks
import PageTree.Proofs.Pictures.Trees
import PageTree.Proofs.Pictures.Charts
import PageTree.Proofs.Pictures.Reworks
import PageTree.Proofs.Pictures.Terrain
import PageTree.Proofs.Text.Acceptance
import PageTree.Proofs.Balance.Compact
import PageTree.Proofs.Balance.Updates
import PageTree.Proofs.Balance.Courses
import PageTree.Proofs.Commit.Demotion
import PageTree.Proofs.System.Residency
import PageTree.Proofs.Tiles.Words
import PageTree.Proofs.Tiles.Sets
import PageTree.Proofs.Commit.Counter
import PageTree.Proofs.Commit.History
import PageTree.Proofs.Text.ByteReader
import PageTree.Proofs.Text.Offsets
import PageTree.Proofs.Text.Places
