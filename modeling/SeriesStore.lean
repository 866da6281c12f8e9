import SeriesStore.Document.Summary
import SeriesStore.Proofs.Aggregates
import SeriesStore.Proofs.BitRegrouping
import SeriesStore.Proofs.Budgets
import SeriesStore.Proofs.Directories
import SeriesStore.Proofs.Encodings
import SeriesStore.Proofs.Gorilla.Narrowing
import SeriesStore.Proofs.Gorilla.Safety
import SeriesStore.Proofs.Gorilla.Truncation
import SeriesStore.Proofs.Series.Grouping
import SeriesStore.Proofs.Series.Retention
import SeriesStore.Proofs.Series.Scanning
import SeriesStore.Proofs.Series.Splitting
import SeriesStore.Proofs.Series.Trimming
import SeriesStore.Proofs.Settings
import SeriesStore.Proofs.Store.Boundary
import SeriesStore.Proofs.Store.Deliveries
import SeriesStore.Proofs.Store.Failures
import SeriesStore.Proofs.Store.Independence
import SeriesStore.Proofs.Store.Refusals
import SeriesStore.Proofs.Store.Retention
import SeriesStore.Proofs.Store.Retries
import SeriesStore.Store.Lifecycle
import SeriesStore.Store.Reading
import SeriesStore.Store.Rules
import SeriesStore.Store.Writing
